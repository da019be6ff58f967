import Mathlib.Algebra.BigOperators.Ring.Finset
import Mathlib.Algebra.Field.GeomSum
import Mathlib.GroupTheory.OrderOfElement
import Mathlib.Tactic.Ring

/-! # The radix-2 transform

The discrete Fourier transform over a commutative ring at a power of two, the butterfly stage that
doubles its length, and the reversal of the index bits under which the stages, run on the whole
vector, leave the transform. Over a field two transforms at inverse roots of the right order give
the vector back, scaled by its length.
-/

namespace RadixTwo

/-! ## Bit reversal -/

/-- The low `k` bits of `i` in reverse. -/
def reverseBits : (k : Nat) → Nat → Nat
  | 0, _ => 0
  | k + 1, i => i % 2 * 2 ^ k + reverseBits k (i / 2)

theorem reverseBits_lt (k i : Nat) : reverseBits k i < 2 ^ k := by
  induction k generalizing i with
  | zero => exact Nat.one_pos
  | succ k ih =>
    have rest := ih (i / 2)
    rw [reverseBits, pow_succ]
    rcases Nat.mod_two_eq_zero_or_one i with bit | bit <;> rw [bit] <;> omega

@[simp] theorem reverseBits_zero (k : Nat) : reverseBits k 0 = 0 := by
  induction k with
  | zero => rfl
  | succ k ih => rw [reverseBits, Nat.zero_div, ih, Nat.zero_mod, Nat.zero_mul]

theorem reverseBits_double (k i : Nat) : reverseBits (k + 1) (2 * i) = reverseBits k i := by
  rw [reverseBits, Nat.mul_mod_right, Nat.zero_mul, Nat.zero_add, Nat.mul_div_cancel_left _ two_pos]

theorem reverseBits_double_add_one (k i : Nat) :
    reverseBits (k + 1) (2 * i + 1) = 2 ^ k + reverseBits k i := by
  have bit : (2 * i + 1) % 2 = 1 := by omega
  have rest : (2 * i + 1) / 2 = i := by omega
  rw [reverseBits, bit, rest, Nat.one_mul]

/-- The top bit comes last. -/
theorem reverseBits_split {k i : Nat} (high : Nat) (below : i < 2 ^ k) (bit : high < 2) :
    reverseBits (k + 1) (high * 2 ^ k + i) = 2 * reverseBits k i + high := by
  induction k generalizing i with
  | zero =>
    obtain rfl : i = 0 := by simpa using below
    obtain rfl | rfl : high = 0 ∨ high = 1 := by omega
    · rfl
    · rfl
  | succ k ih =>
    have half : i / 2 < 2 ^ k := by
      rw [pow_succ] at below
      omega
    have twice : high * 2 ^ (k + 1) = 2 * (high * 2 ^ k) := by ring
    have low : (high * 2 ^ (k + 1) + i) % 2 = i % 2 := by omega
    have rest : (high * 2 ^ (k + 1) + i) / 2 = high * 2 ^ k + i / 2 := by omega
    rw [reverseBits, low, rest, ih half, reverseBits]
    ring

/-- Reversing bits twice. -/
theorem reverseBits_reverseBits {k i : Nat} (below : i < 2 ^ k) :
    reverseBits k (reverseBits k i) = i := by
  induction k generalizing i with
  | zero =>
    obtain rfl : i = 0 := by simpa using below
    rfl
  | succ k ih =>
    have half : i / 2 < 2 ^ k := by
      rw [pow_succ] at below
      omega
    change reverseBits (k + 1) (i % 2 * 2 ^ k + reverseBits k (i / 2)) = i
    rw [reverseBits_split _ (reverseBits_lt k _) (Nat.mod_lt i two_pos), ih half]
    omega

/-! ## Swaps in place -/

section Swaps

variable {R : Type}

/-- The entries after the rounds below `done` of the reversal: a pair is swapped in the round of
its smaller index. -/
def reversing (k done : Nat) (f : Nat → R) (m : Nat) : R :=
  if m < done ∨ reverseBits k m < done then f (reverseBits k m) else f m

theorem reversing_one (k : Nat) (f : Nat → R) {m : Nat} (inside : m < 2 ^ k) :
    reversing k 1 f m = f m := by
  rw [reversing]
  split_ifs with early
  · have zero : m = 0 := by
      rcases early with first | second
      · omega
      · have back := reverseBits_reverseBits inside
        rwa [Nat.lt_one_iff.mp second, reverseBits_zero, eq_comm] at back
    rw [zero, reverseBits_zero]
  · rfl

theorem reversing_all (k : Nat) (f : Nat → R) {m : Nat} (inside : m < 2 ^ k) :
    reversing k (2 ^ k) f m = f (reverseBits k m) := if_pos (.inl inside)

/-- The round at `i` swaps `i` with its reversal if that is larger. -/
theorem reversing_succ {k i : Nat} (below : i < 2 ^ k) (f : Nat → R) {m : Nat}
    (inside : m < 2 ^ k) :
    reversing k (i + 1) f m =
      if i < reverseBits k i then
        (if m = i then reversing k i f (reverseBits k i)
          else if m = reverseBits k i then reversing k i f i else reversing k i f m)
      else reversing k i f m := by
  have back := reverseBits_reverseBits below
  have back' := reverseBits_reverseBits inside
  have other : reverseBits k m = i ↔ m = reverseBits k i :=
    ⟨fun same => by rw [← same, back'], fun same => by rw [same, back]⟩
  split_ifs with larger first second
  · rw [first, reversing, reversing, if_pos (.inl (Nat.lt_succ_self i)), back,
      if_neg (by omega)]
  · rw [second, reversing, reversing, back, if_pos (.inr (Nat.lt_succ_self i)), if_neg (by omega)]
  · have same : m < i + 1 ∨ reverseBits k m < i + 1 ↔ m < i ∨ reverseBits k m < i := by
      have apart := other.not.mpr second
      omega
    rw [reversing, reversing]
    simp only [same]
  · rw [reversing, reversing]
    by_cases here : m = i
    · rw [here]
      rcases Nat.lt_or_ge (reverseBits k i) i with smaller | equal
      · rw [if_pos (.inl (Nat.lt_succ_self i)), if_pos (.inr smaller)]
      · have fixed : reverseBits k i = i := by omega
        rw [fixed]
        simp
    · by_cases there : m = reverseBits k i
      · have smaller : m < i := by
          have apart : m ≠ i := here
          omega
        rw [if_pos (.inl (Nat.lt_succ_of_lt smaller)), if_pos (.inl smaller)]
      · have same : m < i + 1 ∨ reverseBits k m < i + 1 ↔ m < i ∨ reverseBits k m < i := by
          have apart := other.not.mpr there
          omega
        simp only [same]

end Swaps

/-! ## The transform and its stages -/

section Ring

variable {R : Type} [CommRing R]

/-- The transform of the first `2 ^ s` entries at the powers of `w`. -/
def dft (s : Nat) (w : R) (g : Nat → R) (r : Nat) : R :=
  ∑ j ∈ Finset.range (2 ^ s), g j * w ^ (r * j)

/-- One stage of butterflies on blocks of `2 * half` entries. -/
def stage (half : Nat) (w : R) (f : Nat → R) (m : Nat) : R :=
  if m % (2 * half) < half then f m + w ^ (m % half) * f (m + half)
  else f (m - half) - w ^ (m % half) * f m

/-- The first stages, with the root of each level. -/
def stages (w : Nat → R) (f : Nat → R) : Nat → Nat → R
  | 0 => f
  | s + 1 => stage (2 ^ s) (w (s + 1)) (stages w f s)

/-- Each root is a square root of the one below, and its half power is `-1`. -/
structure Roots (k : Nat) (w : Nat → R) : Prop where
  square : ∀ s < k, w (s + 1) * w (s + 1) = w s
  half : ∀ s < k, w (s + 1) ^ 2 ^ s = -1

theorem sum_range_double (h : Nat → R) (m : Nat) :
    ∑ j ∈ Finset.range (2 * m), h j =
      ∑ j ∈ Finset.range m, h (2 * j) + ∑ j ∈ Finset.range m, h (2 * j + 1) := by
  induction m with
  | zero => simp
  | succ m ih =>
    rw [Nat.mul_succ, Finset.sum_range_succ, Finset.sum_range_succ, ih,
      Finset.sum_range_succ (fun j => h (2 * j)), Finset.sum_range_succ (fun j => h (2 * j + 1))]
    ring

theorem dft_succ (s : Nat) (w : R) (g : Nat → R) (r : Nat) :
    dft (s + 1) w g r = dft s (w * w) (fun j => g (2 * j)) r +
      w ^ r * dft s (w * w) (fun j => g (2 * j + 1)) r := by
  rw [dft, pow_succ', sum_range_double, dft, dft, Finset.mul_sum]
  congr 1
  · refine Finset.sum_congr rfl fun j _ => ?_
    rw [← sq, ← pow_mul]
    ring
  · refine Finset.sum_congr rfl fun j _ => ?_
    rw [← sq, ← pow_mul]
    ring

theorem dft_add_period {s : Nat} {w : R} (period : w ^ 2 ^ s = 1) (g : Nat → R) (r : Nat) :
    dft s w g (r + 2 ^ s) = dft s w g r := by
  refine Finset.sum_congr rfl fun j _ => ?_
  rw [Nat.add_mul, pow_add, pow_mul w (2 ^ s), period, one_pow, mul_one]

theorem Roots.below {k l : Nat} {w : Nat → R} (roots : Roots l w) (less : k ≤ l) : Roots k w :=
  ⟨fun s small => roots.square s (small.trans_le less),
    fun s small => roots.half s (small.trans_le less)⟩

theorem Roots.period {k : Nat} {w : Nat → R} (roots : Roots k w) {s : Nat} (level : s < k) :
    w s ^ 2 ^ s = 1 := by
  rw [← roots.square s level, mul_pow, roots.half s level]
  ring

theorem dft_block {k : Nat} {w : Nat → R} (roots : Roots k w) (c : Nat → R) {s d : Nat}
    (level : s + 1 + d = k) (q r : Nat) :
    dft (s + 1) (w (s + 1)) (fun j => c (j * 2 ^ d + reverseBits d q)) r =
      dft s (w s) (fun j => c (j * 2 ^ (d + 1) + reverseBits (d + 1) (2 * q))) r +
        w (s + 1) ^ r *
          dft s (w s) (fun j => c (j * 2 ^ (d + 1) + reverseBits (d + 1) (2 * q + 1))) r := by
  rw [dft_succ, roots.square s (by omega), reverseBits_double, reverseBits_double_add_one]
  have even : ∀ j, 2 * j * 2 ^ d = j * 2 ^ (d + 1) := fun j => by ring
  have odd : ∀ j, (2 * j + 1) * 2 ^ d + reverseBits d q =
      j * 2 ^ (d + 1) + (2 ^ d + reverseBits d q) := fun j => by ring
  simp only [even, odd]

/-- After `s` stages each block of `2 ^ s` entries is the transform of the entries whose indices
its position determines. -/
theorem stages_eq {k : Nat} {w : Nat → R} (roots : Roots k w) (c : Nat → R) {s d : Nat}
    (level : s + d = k) (q : Nat) {r : Nat} (inside : r < 2 ^ s) :
    stages w (fun m => c (reverseBits k m)) s (q * 2 ^ s + r) =
      dft s (w s) (fun j => c (j * 2 ^ d + reverseBits d q)) r := by
  induction s generalizing d q r with
  | zero =>
    obtain rfl : r = 0 := by simpa using inside
    obtain rfl : d = k := by omega
    simp [stages, dft]
  | succ s ih =>
    have below : s + (d + 1) = k := by omega
    have width : 2 * 2 ^ s = 2 ^ (s + 1) := (pow_succ' 2 s).symm
    have position : (q * 2 ^ (s + 1) + r) % 2 ^ (s + 1) = r := by
      rw [Nat.mul_add_mod_self_right, Nat.mod_eq_of_lt inside]
    rw [stages, stage, width, position, dft_block roots c level]
    split_ifs with lower
    · -- the sum of the two blocks below
      have offset : (q * 2 ^ (s + 1) + r) % 2 ^ s = r := by
        rw [← width, ← Nat.mul_assoc, Nat.mul_add_mod_self_right, Nat.mod_eq_of_lt lower]
      have first : q * 2 ^ (s + 1) + r = 2 * q * 2 ^ s + r := by ring
      have second : 2 * q * 2 ^ s + r + 2 ^ s = (2 * q + 1) * 2 ^ s + r := by ring
      rw [offset, first, second, ih below _ lower, ih below _ lower]
    · -- the difference, since the root's half power is `-1`
      obtain ⟨r', rfl⟩ := Nat.exists_eq_add_of_le' (not_lt.mp lower)
      have lower : r' < 2 ^ s := by omega
      have second : q * 2 ^ (s + 1) + (r' + 2 ^ s) = (2 * q + 1) * 2 ^ s + r' := by ring
      have first : (2 * q + 1) * 2 ^ s + r' - 2 ^ s = 2 * q * 2 ^ s + r' := by
        rw [Nat.add_one_mul]
        omega
      have offset : ((2 * q + 1) * 2 ^ s + r') % 2 ^ s = r' := by
        rw [Nat.mul_add_mod_self_right, Nat.mod_eq_of_lt lower]
      have period := roots.period (by omega : s < k)
      rw [second, offset, first, ih below _ lower, ih below _ lower, dft_add_period period,
        dft_add_period period, pow_add (w (s + 1)), roots.half s (by omega)]
      ring

theorem stages_reversed {k : Nat} {w : Nat → R} (roots : Roots k w) (c : Nat → R) {r : Nat}
    (inside : r < 2 ^ k) :
    stages w (fun m => c (reverseBits k m)) k r = dft k (w k) c r := by
  have whole := stages_eq roots c (Nat.add_zero k) 0 inside
  simpa [reverseBits] using whole

/-! ## Butterflies in place -/

/-- A block of a stage after its first `done` butterflies. -/
def block (half start done : Nat) (w : R) (f : Nat → R) (m : Nat) : R :=
  if start ≤ m ∧ m < start + done then f m + w ^ (m - start) * f (m + half)
  else if start + half ≤ m ∧ m < start + half + done then
    f (m - half) - w ^ (m - (start + half)) * f m
  else f m

@[simp] theorem block_zero (half start : Nat) (w : R) (f : Nat → R) :
    block half start 0 w f = f := by
  funext m
  rw [block, if_neg (by omega), if_neg (by omega)]

/-- A butterfly reads and writes its own two entries only. -/
theorem block_succ {half start done : Nat} (inside : done < half) (w : R) (f : Nat → R) :
    block half start (done + 1) w f =
      Function.update (Function.update (block half start done w f) (start + done)
        (f (start + done) + w ^ done * f (start + done + half))) (start + done + half)
        (f (start + done) - w ^ done * f (start + done + half)) := by
  funext m
  by_cases upper : m = start + done + half
  · have low : start + done + half - half = start + done := by omega
    have power : start + done + half - (start + half) = done := by omega
    rw [upper, Function.update_self, block, if_neg (by omega), if_pos (by omega), low, power]
  · rw [Function.update_of_ne upper]
    by_cases lower : m = start + done
    · have power : start + done - start = done := by omega
      rw [lower, Function.update_self, block, if_pos (by omega), power]
    · have first : start ≤ m ∧ m < start + (done + 1) ↔ start ≤ m ∧ m < start + done := by omega
      have second : start + half ≤ m ∧ m < start + half + (done + 1) ↔
          start + half ≤ m ∧ m < start + half + done := by omega
      rw [Function.update_of_ne lower, block, block]
      simp only [first, second]

theorem block_low {half start done : Nat} (inside : done < half) (w : R) (f : Nat → R) :
    block half start done w f (start + done) = f (start + done) := by
  rw [block, if_neg (by omega), if_neg (by omega)]

theorem block_high {half start done : Nat} (inside : done < half) (w : R) (f : Nat → R) :
    block half start done w f (start + done + half) = f (start + done + half) := by
  rw [block, if_neg (by omega), if_neg (by omega)]

/-- A stage after its first `done` blocks. -/
def partialStage (half done : Nat) (w : R) (f : Nat → R) (m : Nat) : R :=
  if m < done * (2 * half) then stage half w f m else f m

theorem partialStage_zero (half : Nat) (w : R) (f : Nat → R) : partialStage half 0 w f = f := by
  funext m
  rw [partialStage, if_neg (by omega)]

/-- One more block of a stage. -/
theorem partialStage_succ (half done : Nat) (w : R) (f : Nat → R) :
    partialStage half (done + 1) w f =
      block half (done * (2 * half)) half w (partialStage half done w f) := by
  funext m
  have ends : (done + 1) * (2 * half) = done * (2 * half) + half + half := by ring
  rw [partialStage, block, ends]
  rcases Nat.lt_or_ge m (done * (2 * half)) with before | after
  · rw [if_pos (by omega), if_neg (by omega), if_neg (by omega), partialStage, if_pos before]
  · obtain ⟨r, rfl⟩ := Nat.exists_eq_add_of_le after
    have untouched : ∀ i, done * (2 * half) ≤ i → partialStage half done w f i = f i :=
      fun i later => if_neg (by omega)
    rcases Nat.lt_or_ge r half with low | high
    · have position : (done * (2 * half) + r) % (2 * half) = r := by
        rw [Nat.mul_add_mod_self_right, Nat.mod_eq_of_lt (by omega)]
      have offset : (done * (2 * half) + r) % half = r := by
        rw [← Nat.mul_assoc, Nat.mul_add_mod_self_right, Nat.mod_eq_of_lt low]
      rw [if_pos (by omega), if_pos (by omega), stage, position, if_pos low, offset,
        untouched _ (by omega), untouched _ (by omega), Nat.add_sub_cancel_left]
    · rcases Nat.lt_or_ge r (half + half) with within | beyond
      · obtain ⟨r', rfl⟩ := Nat.exists_eq_add_of_le high
        have position : (done * (2 * half) + (half + r')) % (2 * half) = half + r' := by
          rw [Nat.mul_add_mod_self_right, Nat.mod_eq_of_lt (by omega)]
        have offset : (done * (2 * half) + (half + r')) % half = r' := by
          have whole : done * (2 * half) + (half + r') = (done * 2 + 1) * half + r' := by ring
          rw [whole, Nat.mul_add_mod_self_right, Nat.mod_eq_of_lt (by omega)]
        have power : done * (2 * half) + (half + r') - (done * (2 * half) + half) = r' := by omega
        rw [if_pos (by omega), if_neg (by omega), if_pos (by omega), stage, position,
          if_neg (by omega), offset, untouched _ (by omega), untouched _ (by omega), power]
      · rw [if_neg (by omega), if_neg (by omega), if_neg (by omega), untouched _ (by omega)]

end Ring

/-! ## Inversion -/

section Field

variable {K : Type} [Field K]

theorem sum_pow_eq_zero {n : Nat} {z : K} (root : z ^ n = 1) (proper : z ≠ 1) :
    ∑ j ∈ Finset.range n, z ^ j = 0 := by
  rw [geom_sum_eq proper, root, sub_self, zero_div]

theorem dft_inverse {k : Nat} {w w' : K} (order : orderOf w = 2 ^ k) (inverse : w * w' = 1)
    (g : Nat → K) {i : Nat} (inside : i < 2 ^ k) :
    dft k w' (dft k w g) i = 2 ^ k * g i := by
  have period : w ^ 2 ^ k = 1 := order ▸ pow_orderOf_eq_one w
  have period' : w' ^ 2 ^ k = 1 := by
    have both := congrArg (· ^ 2 ^ k) inverse
    simpa [mul_pow, period] using both
  have cancel : ∀ j, w ^ j * w' ^ j = 1 := fun j => by rw [← mul_pow, inverse, one_pow]
  have exchange : dft k w' (dft k w g) i =
      ∑ j ∈ Finset.range (2 ^ k), g j * ∑ r ∈ Finset.range (2 ^ k), (w ^ j * w' ^ i) ^ r := by
    simp only [dft, Finset.sum_mul, Finset.mul_sum]
    rw [Finset.sum_comm]
    refine Finset.sum_congr rfl fun j _ => Finset.sum_congr rfl fun r _ => ?_
    rw [mul_pow, ← pow_mul, ← pow_mul, Nat.mul_comm r j, mul_assoc]
  rw [exchange, Finset.sum_eq_single_of_mem i (Finset.mem_range.mpr inside)]
  · rw [cancel i]
    simp [mul_comm]
  · intro j among other
    rw [sum_pow_eq_zero, mul_zero]
    · rw [mul_pow, ← pow_mul, ← pow_mul, Nat.mul_comm, pow_mul, period, one_pow, Nat.mul_comm i,
        pow_mul, period', one_pow, one_mul]
    · intro trivial
      have same : w ^ j = w ^ i := by
        calc w ^ j = w ^ j * (w' ^ i * w ^ i) := by rw [mul_comm (w' ^ i), cancel, mul_one]
          _ = w ^ i := by rw [← mul_assoc, trivial, one_mul]
      refine other (pow_injOn_Iio_orderOf ?_ ?_ same)
      · rw [Set.mem_Iio, order]
        exact Finset.mem_range.mp among
      · rw [Set.mem_Iio, order]
        exact inside

end Field

end RadixTwo
