import Mathlib.Algebra.Field.ZMod
import Mathlib.NumberTheory.LucasPrimality
import Mathlib.Tactic.NormNum.Prime
import Mathlib.Tactic.ReduceModChar
import Obscura.Stark.Field

/-! # The canonical field elements

On words below the modulus the operations of the source are those of the integers modulo a
prime. So the canonical elements form a commutative ring without zero divisors, whose addition,
subtraction and multiplication are the source's.
-/

namespace Obscura.Stark

/-- The modulus as a number. -/
def modulus : Nat := 18446744069414584321

theorem toNat_P : P.toNat = modulus := rfl

theorem toNat_epsilon : epsilon.toNat = 4294967295 := rfl

/-- The modulus is a prime. -/
theorem modulus_prime : modulus.Prime := by
  change Nat.Prime 18446744069414584321
  refine lucas_primality _ (7 : ZMod 18446744069414584321) ?_ ?_
  case refine_1 =>
    change (7 : ZMod 18446744069414584321) ^ 18446744069414584320 = 1
    reduce_mod_char
  case refine_2 =>
    intro q prime divides
    have split : 18446744069414584321 - 1 = 2 ^ 32 * (3 * 5 * 17 * 257 * 65537) := by norm_num
    rw [split] at divides
    have factor : ∀ r, Nat.Prime r → q ∣ r → q = r := fun r other hit =>
      (Nat.prime_dvd_prime_iff_eq prime other).mp hit
    simp only [prime.dvd_mul] at divides
    rcases divides with hit | ((((hit | hit) | hit) | hit) | hit)
    · rw [factor 2 (by norm_num) (prime.dvd_of_dvd_pow hit)]
      change (7 : ZMod 18446744069414584321) ^ 9223372034707292160 ≠ 1
      reduce_mod_char
      decide
    · rw [factor 3 (by norm_num) hit]
      change (7 : ZMod 18446744069414584321) ^ 6148914689804861440 ≠ 1
      reduce_mod_char
      decide
    · rw [factor 5 (by norm_num) hit]
      change (7 : ZMod 18446744069414584321) ^ 3689348813882916864 ≠ 1
      reduce_mod_char
      decide
    · rw [factor 17 (by norm_num) hit]
      change (7 : ZMod 18446744069414584321) ^ 1085102592318504960 ≠ 1
      reduce_mod_char
      decide
    · rw [factor 257 (by norm_num) hit]
      change (7 : ZMod 18446744069414584321) ^ 71777214277877760 ≠ 1
      reduce_mod_char
      decide
    · rw [factor 65537 (by norm_num) hit]
      change (7 : ZMod 18446744069414584321) ^ 281470681743360 ≠ 1
      reduce_mod_char
      decide

instance : Fact modulus.Prime := ⟨modulus_prime⟩

/-! ## The word operations -/

theorem Felt.toNat_add {a b : Felt} (left : a.word < P) (right : b.word < P) :
    (a.add b).word.toNat = (a.word.toNat + b.word.toNat) % modulus := by
  rw [UInt64.lt_iff_toNat_lt, toNat_P] at left right
  unfold modulus at *
  dsimp only [Felt.add, add64]
  split_ifs with carried reduce reduce <;>
    simp only [UInt64.lt_iff_toNat_lt, UInt64.le_iff_toNat_le, UInt64.toNat_add, UInt64.toNat_sub,
      UInt64.toNat_mul, toNat_P, toNat_epsilon, modulus, UInt64.toNat_one, UInt64.toNat_zero,
      Nat.mul_one, Nat.mul_zero] at * <;> omega

theorem Felt.toNat_sub {a b : Felt} (left : a.word < P) (right : b.word < P) :
    (a.sub b).word.toNat = (a.word.toNat + (modulus - b.word.toNat)) % modulus := by
  rw [UInt64.lt_iff_toNat_lt, toNat_P] at left right
  unfold modulus at *
  dsimp only [Felt.sub, sub64]
  split_ifs with borrowed <;>
    simp only [UInt64.lt_iff_toNat_lt, UInt64.toNat_sub, UInt64.toNat_mul, toNat_epsilon,
      UInt64.toNat_one, UInt64.toNat_zero, Nat.mul_one, Nat.mul_zero] at * <;> omega

theorem toNat_borrow (x y : UInt64) (half : y.toNat < 2 ^ 32) :
    ((sub64 x y).1 - epsilon * (sub64 x y).2).toNat + y.toNat = x.toNat ∨
      ((sub64 x y).1 - epsilon * (sub64 x y).2).toNat + y.toNat = x.toNat + modulus := by
  have word := x.toNat_lt
  dsimp only [sub64]
  split_ifs with borrowed <;>
    simp only [UInt64.lt_iff_toNat_lt, UInt64.toNat_sub, UInt64.toNat_mul, toNat_epsilon, modulus,
      UInt64.toNat_one, UInt64.toNat_zero, Nat.mul_one, Nat.mul_zero] at * <;> omega

theorem toNat_carry (x y : UInt64) (product : y.toNat ≤ 4294967295 * 4294967295) :
    ((add64 x y).1 + epsilon * (add64 x y).2).toNat = x.toNat + y.toNat ∨
      ((add64 x y).1 + epsilon * (add64 x y).2).toNat + modulus = x.toNat + y.toNat := by
  have word := x.toNat_lt
  dsimp only [add64]
  split_ifs with carried <;>
    simp only [UInt64.lt_iff_toNat_lt, UInt64.toNat_add, UInt64.toNat_mul, toNat_epsilon, modulus,
      UInt64.toNat_one, UInt64.toNat_zero, Nat.mul_one, Nat.mul_zero] at * <;> omega

theorem toNat_reduceWord (x : UInt64) :
    (if P ≤ x then x - P else x).toNat = x.toNat % modulus := by
  have word := x.toNat_lt
  split_ifs with large <;>
    simp only [UInt64.le_iff_toNat_le, UInt64.toNat_sub, toNat_P, modulus] at * <;> omega

/-- The reduction of two words. -/
theorem toNat_reduce128 (hi lo : UInt64) :
    (reduce128 hi lo).toNat = (hi.toNat * 2 ^ 64 + lo.toNat) % modulus := by
  have high : (hi >>> 32).toNat = hi.toNat / 2 ^ 32 := by
    rw [UInt64.toNat_shiftRight, Nat.shiftRight_eq_div_pow]
    rfl
  have low : (hi &&& epsilon).toNat = hi.toNat % 2 ^ 32 := by
    rw [UInt64.toNat_and, toNat_epsilon]
    exact Nat.and_two_pow_sub_one_eq_mod _ 32
  have word := hi.toNat_lt
  have lower : (hi &&& epsilon).toNat ≤ 4294967295 := by omega
  have product : ((hi &&& epsilon) * epsilon).toNat = (hi &&& epsilon).toNat * 4294967295 := by
    rw [UInt64.toNat_mul, toNat_epsilon]
    omega
  have folded := toNat_borrow lo (hi >>> 32) (by omega)
  dsimp only [reduce128]
  rw [toNat_reduceWord]
  generalize (sub64 lo (hi >>> 32)).1 - epsilon * (sub64 lo (hi >>> 32)).2 = t0 at folded ⊢
  have carried := toNat_carry t0 ((hi &&& epsilon) * epsilon) (by omega)
  generalize (add64 t0 ((hi &&& epsilon) * epsilon)).1 +
    epsilon * (add64 t0 ((hi &&& epsilon) * epsilon)).2 = t2 at carried ⊢
  -- `2 ^ 64` is `2 ^ 32 - 1` and `2 ^ 96` is `-1` modulo the modulus
  have spread : hi.toNat * 2 ^ 64 + lo.toNat + hi.toNat / 2 ^ 32 =
      modulus * (hi.toNat + hi.toNat / 2 ^ 32) + (lo.toNat + hi.toNat % 2 ^ 32 * 4294967295) := by
    unfold modulus
    omega
  have same : (t2.toNat + hi.toNat / 2 ^ 32) % modulus =
      (hi.toNat * 2 ^ 64 + lo.toNat + hi.toNat / 2 ^ 32) % modulus := by
    rw [spread, Nat.mul_add_mod]
    unfold modulus at *
    omega
  exact Nat.ModEq.add_right_cancel' _ same

theorem Felt.toNat_mul (a b : Felt) :
    (a.mul b).word.toNat = a.word.toNat * b.word.toNat % modulus := by
  have left := a.word.toNat_lt
  have right := b.word.toNat_lt
  have high : a.word.toNat * b.word.toNat / 2 ^ 64 < 2 ^ 64 :=
    Nat.div_lt_of_lt_mul (Nat.mul_lt_mul'' left right)
  dsimp only [Felt.mul, mul64]
  rw [toNat_reduce128, UInt64.toNat_ofNat', Nat.mod_eq_of_lt high, UInt64.toNat_mul]
  rw [Nat.mul_comm _ (2 ^ 64), Nat.div_add_mod]

theorem canonical_of_toNat {a : Felt} {n : Nat} (value : a.word.toNat = n % modulus) :
    a.word < P := by
  rw [UInt64.lt_iff_toNat_lt, toNat_P, value]
  exact Nat.mod_lt n (by norm_num [modulus])

/-! ## The field -/

/-- A field element in canonical form. -/
structure Goldilocks where
  felt : Felt
  canonical : felt.word < P
deriving DecidableEq

namespace Goldilocks

/-- The residue an element stands for. -/
def residue (a : Goldilocks) : ZMod modulus := (a.felt.word.toNat : ZMod modulus)

theorem toNat_lt (a : Goldilocks) : a.felt.word.toNat < modulus := by
  have canonical := a.canonical
  rwa [UInt64.lt_iff_toNat_lt, toNat_P] at canonical

theorem residue_val (a : Goldilocks) : a.residue.val = a.felt.word.toNat := by
  rw [residue, ZMod.val_natCast, Nat.mod_eq_of_lt a.toNat_lt]

theorem residue_injective : Function.Injective residue := by
  intro a b same
  have values := congrArg ZMod.val same
  rw [residue_val, residue_val, UInt64.toNat_inj] at values
  obtain ⟨⟨left⟩, leftCanonical⟩ := a
  obtain ⟨⟨right⟩, rightCanonical⟩ := b
  obtain rfl : left = right := values
  rfl

instance : Zero Goldilocks := ⟨⟨.zero, by decide⟩⟩

instance : One Goldilocks := ⟨⟨.one, by decide⟩⟩

instance : Add Goldilocks where
  add a b := ⟨a.felt.add b.felt, canonical_of_toNat (Felt.toNat_add a.canonical b.canonical)⟩

instance : Sub Goldilocks where
  sub a b := ⟨a.felt.sub b.felt, canonical_of_toNat (Felt.toNat_sub a.canonical b.canonical)⟩

instance : Mul Goldilocks where
  mul a b := ⟨a.felt.mul b.felt, canonical_of_toNat (Felt.toNat_mul a.felt b.felt)⟩

instance : Neg Goldilocks where
  neg a := 0 - a

theorem residue_zero : residue 0 = 0 := Nat.cast_zero

theorem residue_one : residue 1 = 1 := Nat.cast_one

theorem residue_add (a b : Goldilocks) : (a + b).residue = a.residue + b.residue := by
  have value := Felt.toNat_add a.canonical b.canonical
  rw [residue, residue, residue, ← Nat.cast_add, ZMod.natCast_eq_natCast_iff']
  exact (congrArg (· % modulus) value).trans (Nat.mod_mod _ _)

/-- The residue of a difference. -/
theorem residue_sub (a b : Goldilocks) : (a - b).residue = a.residue - b.residue := by
  have value := Felt.toNat_sub a.canonical b.canonical
  have less := b.toNat_lt.le
  rw [residue, residue, residue, sub_eq_add_neg]
  have back : ((modulus - b.felt.word.toNat : Nat) : ZMod modulus) =
      -(b.felt.word.toNat : ZMod modulus) := by
    rw [Nat.cast_sub less, ZMod.natCast_self, zero_sub]
  rw [← back, ← Nat.cast_add, ZMod.natCast_eq_natCast_iff']
  exact (congrArg (· % modulus) value).trans (Nat.mod_mod _ _)

theorem residue_mul (a b : Goldilocks) : (a * b).residue = a.residue * b.residue := by
  have value := Felt.toNat_mul a.felt b.felt
  rw [residue, residue, residue, ← Nat.cast_mul, ZMod.natCast_eq_natCast_iff']
  exact (congrArg (· % modulus) value).trans (Nat.mod_mod _ _)

theorem residue_neg (a : Goldilocks) : (-a).residue = -a.residue := by
  change (0 - a).residue = _
  rw [residue_sub, residue_zero, zero_sub]

instance : CommRing Goldilocks where
  add_assoc a b c := residue_injective (by simp only [residue_add, add_assoc])
  zero_add a := residue_injective (by rw [residue_add, residue_zero, zero_add])
  add_zero a := residue_injective (by rw [residue_add, residue_zero, add_zero])
  add_comm a b := residue_injective (by simp only [residue_add, add_comm])
  left_distrib a b c := residue_injective (by simp only [residue_add, residue_mul, mul_add])
  right_distrib a b c := residue_injective (by simp only [residue_add, residue_mul, add_mul])
  zero_mul a := residue_injective (by rw [residue_mul, residue_zero, zero_mul])
  mul_zero a := residue_injective (by rw [residue_mul, residue_zero, mul_zero])
  mul_assoc a b c := residue_injective (by simp only [residue_mul, mul_assoc])
  one_mul a := residue_injective (by rw [residue_mul, residue_one, one_mul])
  mul_one a := residue_injective (by rw [residue_mul, residue_one, mul_one])
  mul_comm a b := residue_injective (by simp only [residue_mul, mul_comm])
  neg_add_cancel a := residue_injective (by
    rw [residue_add, residue_neg, residue_zero, neg_add_cancel])
  sub_eq_add_neg a b := residue_injective (by
    rw [residue_sub, residue_add, residue_neg, sub_eq_add_neg])
  nsmul := nsmulRec
  zsmul := zsmulRec

/-- The residue as a ring homomorphism. -/
def residueHom : Goldilocks →+* ZMod modulus where
  toFun := residue
  map_one' := residue_one
  map_mul' := residue_mul
  map_zero' := residue_zero
  map_add' := residue_add

instance : IsDomain Goldilocks := residue_injective.isDomain residueHom

/-! ## Elements as integers -/

/-- `NewFelt`. -/
def newFelt (x : UInt64) : Goldilocks :=
  ⟨Obscura.Stark.newFelt x, canonical_of_toNat (toNat_reduceWord x)⟩

/-- `uint64(a)`. -/
def uint64 (a : Goldilocks) : UInt64 := a.felt.word

theorem uint64_injective {a b : Goldilocks} (same : a.uint64.toNat = b.uint64.toNat) : a = b :=
  residue_injective (congrArg (Nat.cast (R := ZMod modulus)) same)

theorem natCast_uint64 (a : Goldilocks) : (a.uint64.toNat : Goldilocks) = a :=
  residue_injective (map_natCast residueHom a.uint64.toNat)

theorem uint64_natCast {n : Nat} (small : n < modulus) : (n : Goldilocks).uint64.toNat = n := by
  have cast : (n : Goldilocks).residue = (n : ZMod modulus) := map_natCast residueHom n
  have value := congrArg ZMod.val cast
  rwa [residue_val, ZMod.val_natCast, Nat.mod_eq_of_lt small] at value

theorem uint64_newFelt {x : UInt64} (small : x.toNat < modulus) :
    (newFelt x).uint64.toNat = x.toNat :=
  (toNat_reduceWord x).trans (Nat.mod_eq_of_lt small)

theorem uint64_add {a b : Goldilocks} (small : a.uint64.toNat + b.uint64.toNat < modulus) :
    (a + b).uint64.toNat = a.uint64.toNat + b.uint64.toNat :=
  (Felt.toNat_add a.canonical b.canonical).trans (Nat.mod_eq_of_lt small)

end Goldilocks

end Obscura.Stark
