import Mathlib.FieldTheory.KummerPolynomial
import Mathlib.NumberTheory.LegendreSymbol.Basic
import Mathlib.RingTheory.AdjoinRoot
import Obscura.Stark.Goldilocks

/-! # The field and its quadratic extension

Square-and-multiply computes the power, so the Fermat inverse is the inverse and the canonical
elements are the field of the integers modulo the prime. Pairs of canonical elements are the field
that adjoins a square root of `7`, which is no square: each of their operations is the one of the
quotient of the polynomials by `X ^ 2 - 7`.
-/

namespace Obscura.Stark

open Polynomial

/-! ## Powers and inverses -/

theorem mul_pow_odd {M : Type} [CommMonoid M] (result base : M) {e : Nat} (odd : e % 2 = 1) :
    result * base * (base * base) ^ (e / 2) = result * base ^ e := by
  conv_rhs => rw [← Nat.div_add_mod e 2, odd, pow_succ', pow_mul, sq]
  rw [mul_assoc]

theorem mul_pow_even {M : Type} [CommMonoid M] (result base : M) {e : Nat} (even : ¬ e % 2 = 1) :
    result * (base * base) ^ (e / 2) = result * base ^ e := by
  have rest : e % 2 = 0 := by omega
  conv_rhs => rw [← Nat.div_add_mod e 2, rest, add_zero, pow_mul, sq]

namespace Goldilocks

theorem felt_mul (a b : Goldilocks) : (a * b).felt = a.felt.mul b.felt := rfl

theorem eq_of_felt {a b : Goldilocks} (same : a.felt = b.felt) : a = b := by
  cases a
  cases b
  cases same
  rfl

theorem expLoop_felt {rounds e : Nat} (enough : e < 2 ^ rounds) (result base : Goldilocks) :
    Felt.expLoop rounds result.felt base.felt e = (result * base ^ e).felt := by
  induction rounds generalizing result base e with
  | zero =>
    obtain rfl : e = 0 := by simpa using enough
    rw [Felt.expLoop, pow_zero, mul_one]
  | succ rounds ih =>
    have half : e / 2 < 2 ^ rounds := by omega
    rw [Felt.expLoop]
    split_ifs with more odd
    · have step := ih half (result * base) (base * base)
      rw [mul_pow_odd result base odd] at step
      exact step
    · have step := ih half result (base * base)
      rw [mul_pow_even result base odd] at step
      exact step
    · obtain rfl : e = 0 := by omega
      rw [pow_zero, mul_one]

theorem exp_felt (a : Goldilocks) (e : UInt64) : a.felt.exp e = (a ^ e.toNat).felt := by
  have power := expLoop_felt e.toNat_lt 1 a
  rw [one_mul] at power
  exact power

/-- Fermat's exponent. -/
theorem residue_pow_pred {a : Goldilocks} (nonzero : a ≠ 0) : a ^ (modulus - 2) * a = 1 := by
  refine residue_injective ?_
  have unit : a.residue ≠ 0 := fun zero =>
    nonzero (residue_injective (zero.trans residue_zero.symm))
  have power : (a ^ (modulus - 2)).residue = a.residue ^ (modulus - 2) := map_pow residueHom a _
  rw [residue_mul, power, residue_one, ← pow_succ]
  exact ZMod.pow_card_sub_one_eq_one unit

theorem inv_felt (a : Goldilocks) :
    a.felt.inv = (if a = 0 then 0 else a ^ (modulus - 2)).felt := by
  have zero : a.felt = .zero ↔ a = 0 := ⟨fun same => eq_of_felt same, congrArg felt⟩
  rw [Felt.inv]
  by_cases none : a = 0
  · rw [if_pos none, if_pos (zero.mpr none)]
    rfl
  · rw [if_neg none, if_neg (zero.not.mpr none), exp_felt]
    rfl

instance : Inv Goldilocks where
  inv a := ⟨a.felt.inv, by rw [inv_felt]; exact canonical _⟩

theorem felt_inv (a : Goldilocks) : a⁻¹.felt = a.felt.inv := rfl

theorem inv_eq (a : Goldilocks) : a⁻¹ = if a = 0 then 0 else a ^ (modulus - 2) :=
  eq_of_felt (inv_felt a)

instance : Field Goldilocks where
  mul_inv_cancel a nonzero := by
    rw [inv_eq, if_neg nonzero, mul_comm, residue_pow_pred nonzero]
  inv_zero := by rw [inv_eq, if_pos rfl]
  nnqsmul := _
  nnqsmul_def := fun _ _ => rfl
  qsmul := _
  qsmul_def := fun _ _ => rfl

/-- The residues are the elements. -/
noncomputable def equiv : Goldilocks ≃+* ZMod modulus :=
  RingEquiv.ofBijective residueHom ⟨residue_injective, fun z =>
    ⟨(z.val : Goldilocks), (map_natCast residueHom z.val).trans (ZMod.natCast_zmod_val z)⟩⟩

theorem equiv_val (a : Goldilocks) : (equiv a).val = a.felt.word.toNat := residue_val a

end Goldilocks

/-! ## The non-residue -/

/-- The adjoined square. -/
def nonResidue : Goldilocks := ⟨generator, by decide⟩

theorem residue_nonResidue : nonResidue.residue = 7 := rfl

theorem seven_not_square : ¬ IsSquare (7 : ZMod modulus) := by
  have nonzero : (7 : ZMod modulus) ≠ 0 := by decide
  have half : modulus / 2 = 9223372034707292160 := by norm_num [modulus]
  have power : (7 : ZMod 18446744069414584321) ^ 9223372034707292160 ≠ 1 := by
    reduce_mod_char
    decide
  rw [ZMod.euler_criterion modulus nonzero, half]
  exact power

theorem nonResidue_not_square (a : Goldilocks) : a * a ≠ nonResidue := fun square =>
  seven_not_square ⟨a.residue, by rw [← Goldilocks.residue_mul, square, residue_nonResidue]⟩

theorem norm_ne_zero {a b : Goldilocks} (nonzero : ¬ (a = 0 ∧ b = 0)) :
    a * a - b * b * nonResidue ≠ 0 := by
  intro zero
  rw [sub_eq_zero] at zero
  by_cases base : b = 0
  · rw [base, zero_mul, zero_mul, mul_self_eq_zero] at zero
    exact nonzero ⟨zero, base⟩
  · refine nonResidue_not_square (a * b⁻¹) ?_
    calc a * b⁻¹ * (a * b⁻¹) = a * a * (b⁻¹ * b⁻¹) := by ring
      _ = nonResidue * (b * b⁻¹) * (b * b⁻¹) := by rw [zero]; ring
      _ = nonResidue := by rw [mul_inv_cancel₀ base, mul_one, mul_one]

/-! ## Canonical pairs -/

/-- An element of the extension whose two coefficients are canonical. -/
@[ext]
structure Goldilocks2 where
  A : Goldilocks
  B : Goldilocks
deriving DecidableEq

namespace Goldilocks2

/-- The element as the words that hold it. -/
def felt2 (x : Goldilocks2) : Felt2 := ⟨x.A.felt, x.B.felt⟩

theorem eq_of_felt2 {x y : Goldilocks2} (same : x.felt2 = y.felt2) : x = y := by
  obtain ⟨left, right⟩ := Felt2.mk.inj same
  exact Goldilocks2.ext (Goldilocks.eq_of_felt left) (Goldilocks.eq_of_felt right)

instance : Zero Goldilocks2 := ⟨⟨0, 0⟩⟩

instance : One Goldilocks2 := ⟨⟨1, 0⟩⟩

instance : Add Goldilocks2 where
  add x y := ⟨x.A + y.A, x.B + y.B⟩

instance : Sub Goldilocks2 where
  sub x y := ⟨x.A - y.A, x.B - y.B⟩

instance : Mul Goldilocks2 where
  mul x y := ⟨x.A * y.A + x.B * y.B * nonResidue, x.A * y.B + x.B * y.A⟩

theorem add_felt2 (x y : Goldilocks2) : (x + y).felt2 = x.felt2.add y.felt2 := rfl

theorem sub_felt2 (x y : Goldilocks2) : (x - y).felt2 = x.felt2.sub y.felt2 := rfl

theorem mul_felt2 (x y : Goldilocks2) : (x * y).felt2 = x.felt2.mul y.felt2 := rfl

instance : Neg Goldilocks2 where
  neg x := 0 - x

section Coefficients

variable (x y : Goldilocks2)

@[simp] theorem zero_A : (0 : Goldilocks2).A = 0 := rfl
@[simp] theorem zero_B : (0 : Goldilocks2).B = 0 := rfl
@[simp] theorem one_A : (1 : Goldilocks2).A = 1 := rfl
@[simp] theorem one_B : (1 : Goldilocks2).B = 0 := rfl
@[simp] theorem add_A : (x + y).A = x.A + y.A := rfl
@[simp] theorem add_B : (x + y).B = x.B + y.B := rfl
@[simp] theorem sub_A : (x - y).A = x.A - y.A := rfl
@[simp] theorem sub_B : (x - y).B = x.B - y.B := rfl
@[simp] theorem neg_A : (-x).A = -x.A := zero_sub x.A
@[simp] theorem neg_B : (-x).B = -x.B := zero_sub x.B
@[simp] theorem mul_A : (x * y).A = x.A * y.A + x.B * y.B * nonResidue := rfl
@[simp] theorem mul_B : (x * y).B = x.A * y.B + x.B * y.A := rfl

end Coefficients

instance : CommRing Goldilocks2 where
  add_assoc x y z := by ext1 <;> simp only [add_A, add_B, add_assoc]
  zero_add x := by ext1 <;> simp
  add_zero x := by ext1 <;> simp
  add_comm x y := by ext1 <;> simp only [add_A, add_B, add_comm]
  left_distrib x y z := by ext1 <;> simp only [mul_A, mul_B, add_A, add_B] <;> ring
  right_distrib x y z := by ext1 <;> simp only [mul_A, mul_B, add_A, add_B] <;> ring
  zero_mul x := by ext1 <;> simp
  mul_zero x := by ext1 <;> simp
  mul_assoc x y z := by ext1 <;> simp only [mul_A, mul_B] <;> ring
  one_mul x := by ext1 <;> simp
  mul_one x := by ext1 <;> simp
  mul_comm x y := by ext1 <;> simp only [mul_A, mul_B] <;> ring
  neg_add_cancel x := by ext1 <;> simp
  sub_eq_add_neg x y := by ext1 <;> simp [sub_eq_add_neg]
  nsmul := nsmulRec
  zsmul := zsmulRec

theorem square_felt2 (x : Goldilocks2) : x.felt2.square = (x * x).felt2 := by
  have product : x.felt2.square =
      (⟨x.A * x.A + x.B * x.B * nonResidue, x.A * x.B + x.A * x.B⟩ : Goldilocks2).felt2 := rfl
  rw [product]
  refine congrArg felt2 (Goldilocks2.ext rfl ?_)
  rw [mul_B, mul_comm x.B x.A]

/-- The loop of `Exp` multiplies by the power. -/
theorem expLoop_felt2 {rounds e : Nat} (enough : e < 2 ^ rounds) (result base : Goldilocks2) :
    Felt2.expLoop rounds result.felt2 base.felt2 e = (result * base ^ e).felt2 := by
  induction rounds generalizing result base e with
  | zero =>
    obtain rfl : e = 0 := by simpa using enough
    rw [Felt2.expLoop, pow_zero, mul_one]
  | succ rounds ih =>
    have half : e / 2 < 2 ^ rounds := by omega
    rw [Felt2.expLoop, square_felt2]
    split_ifs with more odd
    · have step := ih half (result * base) (base * base)
      rw [mul_pow_odd result base odd] at step
      exact step
    · have step := ih half result (base * base)
      rw [mul_pow_even result base odd] at step
      exact step
    · obtain rfl : e = 0 := by omega
      rw [pow_zero, mul_one]

theorem exp_felt2 (x : Goldilocks2) (e : UInt64) : x.felt2.exp e = (x ^ e.toNat).felt2 := by
  have power := expLoop_felt2 e.toNat_lt 1 x
  rw [one_mul] at power
  exact power

theorem inv_felt2 (x : Goldilocks2) : x.felt2.inv =
    (⟨x.A * (x.A * x.A - x.B * x.B * nonResidue)⁻¹,
      -x.B * (x.A * x.A - x.B * x.B * nonResidue)⁻¹⟩ : Goldilocks2).felt2 := by
  rw [Felt2.inv]
  split_ifs with zero
  · obtain rfl : x = 0 := eq_of_felt2 zero
    rw [zero_A, zero_B, neg_zero, zero_mul]
    rfl
  · rfl

instance : Inv Goldilocks2 where
  inv x := ⟨x.A * (x.A * x.A - x.B * x.B * nonResidue)⁻¹,
    -x.B * (x.A * x.A - x.B * x.B * nonResidue)⁻¹⟩

theorem mul_inv {x : Goldilocks2} (nonzero : x ≠ 0) : x * x⁻¹ = 1 := by
  have norm := norm_ne_zero fun both : x.A = 0 ∧ x.B = 0 =>
    nonzero (Goldilocks2.ext both.1 both.2)
  ext1
  · change x.A * (x.A * _) + x.B * (-x.B * _) * nonResidue = 1
    rw [← mul_inv_cancel₀ norm]
    ring
  · change x.A * (-x.B * _) + x.B * (x.A * _) = 0
    ring

instance : Field Goldilocks2 where
  exists_pair_ne := ⟨0, 1, fun same => zero_ne_one (congrArg A same)⟩
  mul_inv_cancel x nonzero := mul_inv nonzero
  inv_zero := by
    ext1
    · exact zero_mul _
    · change -(0 : Goldilocks) * _ = 0
      rw [neg_zero, zero_mul]
  nnqsmul := _
  nnqsmul_def := fun _ _ => rfl
  qsmul := _
  qsmul_def := fun _ _ => rfl

end Goldilocks2

/-! ## The quotient of the polynomials -/

/-- The polynomial whose root is adjoined. -/
noncomputable def extensionPoly : (ZMod modulus)[X] := X ^ 2 - C 7

theorem extensionPoly_irreducible : Irreducible extensionPoly :=
  X_pow_sub_C_irreducible_of_prime Nat.prime_two fun b square =>
    seven_not_square ⟨b, by rw [← square, sq]⟩

theorem extensionPoly_monic : extensionPoly.Monic := monic_X_pow_sub_C 7 two_ne_zero

theorem extensionPoly_degree : extensionPoly.degree = 2 := degree_X_pow_sub_C two_pos 7

theorem root_mul_root : AdjoinRoot.root extensionPoly * AdjoinRoot.root extensionPoly =
    AdjoinRoot.of extensionPoly 7 := by
  have zero : (X ^ 2 - C 7 : (ZMod modulus)[X]).eval₂ (AdjoinRoot.of extensionPoly)
      (AdjoinRoot.root extensionPoly) = 0 := AdjoinRoot.eval₂_root extensionPoly
  rwa [eval₂_sub, eval₂_X_pow, eval₂_C, sub_eq_zero, sq] at zero

namespace Goldilocks2

/-- The element of the quotient that a pair stands for. -/
noncomputable def element : Goldilocks2 →+* AdjoinRoot extensionPoly where
  toFun x := AdjoinRoot.of extensionPoly x.A.residue +
    AdjoinRoot.of extensionPoly x.B.residue * AdjoinRoot.root extensionPoly
  map_zero' := by
    rw [zero_A, zero_B, Goldilocks.residue_zero, map_zero, zero_mul, add_zero]
  map_one' := by
    rw [one_A, one_B, Goldilocks.residue_one, Goldilocks.residue_zero, map_zero, map_one, zero_mul,
      add_zero]
  map_add' x y := by
    rw [add_A, add_B, Goldilocks.residue_add, Goldilocks.residue_add, map_add, map_add]
    ring
  map_mul' x y := by
    rw [mul_A, mul_B, Goldilocks.residue_add, Goldilocks.residue_add, Goldilocks.residue_mul,
      Goldilocks.residue_mul, Goldilocks.residue_mul, Goldilocks.residue_mul,
      Goldilocks.residue_mul, residue_nonResidue, map_add, map_add, map_mul, map_mul, map_mul,
      map_mul, map_mul, ← root_mul_root]
    ring

theorem element_eq_mk (x : Goldilocks2) : element x =
    AdjoinRoot.mk extensionPoly (C x.B.residue * X + C x.A.residue) := by
  rw [map_add, map_mul, AdjoinRoot.mk_C, AdjoinRoot.mk_C, AdjoinRoot.mk_X, add_comm]
  rfl

theorem element_injective : Function.Injective element := by
  rw [injective_iff_map_eq_zero]
  intro x zero
  rw [element_eq_mk, AdjoinRoot.mk_eq_zero] at zero
  have none := eq_zero_of_dvd_of_degree_lt zero (by
    rw [extensionPoly_degree]
    exact degree_linear_lt)
  have low := congrArg (coeff · 0) none
  have high := congrArg (coeff · 1) none
  simp only [coeff_add, coeff_C_mul, coeff_X_zero, coeff_X_one, coeff_C_zero, coeff_C_succ,
    mul_zero, mul_one, zero_add, add_zero, coeff_zero] at low high
  exact Goldilocks2.ext (Goldilocks.residue_injective (low.trans Goldilocks.residue_zero.symm))
    (Goldilocks.residue_injective (high.trans Goldilocks.residue_zero.symm))

/-- Every element is a pair. -/
theorem element_surjective : Function.Surjective element := by
  intro z
  obtain ⟨p, rfl⟩ := AdjoinRoot.mk_surjective z
  -- a polynomial is its remainder, which is linear
  obtain ⟨r, linear, same⟩ : ∃ r : (ZMod modulus)[X], r.degree ≤ 1 ∧
      AdjoinRoot.mk extensionPoly r = AdjoinRoot.mk extensionPoly p := by
    refine ⟨p %ₘ extensionPoly, ?_, ?_⟩
    · have less := degree_modByMonic_lt p extensionPoly_monic
      rw [extensionPoly_degree] at less
      exact Order.lt_succ_iff.mp less
    · have split := congrArg (AdjoinRoot.mk extensionPoly) (modByMonic_add_div p extensionPoly)
      rw [map_add, map_mul, AdjoinRoot.mk_self, zero_mul, add_zero] at split
      exact split
  obtain ⟨a, low⟩ := Goldilocks.equiv.surjective (r.coeff 0)
  obtain ⟨b, high⟩ := Goldilocks.equiv.surjective (r.coeff 1)
  refine ⟨⟨a, b⟩, ?_⟩
  rw [element_eq_mk, ← same, eq_X_add_C_of_degree_le_one linear, ← low, ← high]
  rfl

end Goldilocks2

instance : Fact (Irreducible extensionPoly) := ⟨extensionPoly_irreducible⟩

/-- On canonical elements the word operations are those of the field of the integers modulo the
prime, and the pairs of canonical elements with the operations of the source are the quotient of
the polynomials over it by `X ^ 2 - 7`, a field because `7` is no square. -/
theorem goldilocks_exact :
    modulus = 2 ^ 64 - 2 ^ 32 + 1 ∧
    (∀ hi lo : UInt64, (reduce128 hi lo).toNat = (hi.toNat * 2 ^ 64 + lo.toNat) % modulus) ∧
    (∀ a b : Goldilocks,
      (a.felt.add b.felt).word.toNat = (a.residue + b.residue).val ∧
      (a.felt.sub b.felt).word.toNat = (a.residue - b.residue).val ∧
      (a.felt.mul b.felt).word.toNat = (a.residue * b.residue).val) ∧
    (∀ (a : Goldilocks) (e : UInt64),
      (a.felt.exp e).word.toNat = (a.residue ^ e.toNat).val) ∧
    (∀ a : Goldilocks, a.felt.inv.word.toNat = a.residue⁻¹.val) ∧ Felt.zero.inv = Felt.zero ∧
    ¬ IsSquare (7 : ZMod modulus) ∧ Irreducible extensionPoly ∧
    Function.Bijective Goldilocks2.element ∧
    (∀ x y : Goldilocks2,
      (∃ z : Goldilocks2, z.felt2 = x.felt2.add y.felt2 ∧ z.element = x.element + y.element) ∧
      (∃ z : Goldilocks2, z.felt2 = x.felt2.sub y.felt2 ∧ z.element = x.element - y.element) ∧
      ∃ z : Goldilocks2, z.felt2 = x.felt2.mul y.felt2 ∧ z.element = x.element * y.element) ∧
    (∀ x : Goldilocks2, ∃ z : Goldilocks2, z.felt2 = x.felt2.inv ∧ z.element = x.element⁻¹) ∧
    ∀ (x : Goldilocks2) (e : UInt64),
      ∃ z : Goldilocks2, z.felt2 = x.felt2.exp e ∧ z.element = x.element ^ e.toNat := by
  refine ⟨rfl, toNat_reduce128, fun a b => ⟨?_, ?_, ?_⟩, fun a e => ?_, fun a => ?_, rfl,
    seven_not_square, extensionPoly_irreducible,
    ⟨Goldilocks2.element_injective, Goldilocks2.element_surjective⟩, fun x y => ⟨?_, ?_, ?_⟩,
    fun x => ?_, fun x e => ?_⟩
  · rw [← Goldilocks.residue_add, Goldilocks.residue_val]
    rfl
  · rw [← Goldilocks.residue_sub, Goldilocks.residue_val]
    rfl
  · rw [← Goldilocks.residue_mul, Goldilocks.residue_val]
    rfl
  · have power : (a ^ e.toNat).residue = a.residue ^ e.toNat := map_pow Goldilocks.residueHom a _
    rw [Goldilocks.exp_felt, ← power, Goldilocks.residue_val]
  · have inverse : a⁻¹.residue = a.residue⁻¹ := map_inv₀ Goldilocks.residueHom a
    rw [← inverse, Goldilocks.residue_val]
    rfl
  · exact ⟨x + y, Goldilocks2.add_felt2 x y, map_add _ x y⟩
  · exact ⟨x - y, Goldilocks2.sub_felt2 x y, map_sub _ x y⟩
  · exact ⟨x * y, Goldilocks2.mul_felt2 x y, map_mul _ x y⟩
  · exact ⟨x⁻¹, (Goldilocks2.inv_felt2 x).symm, map_inv₀ Goldilocks2.element x⟩
  · exact ⟨x ^ e.toNat, (Goldilocks2.exp_felt2 x e).symm, map_pow _ x _⟩

end Obscura.Stark
