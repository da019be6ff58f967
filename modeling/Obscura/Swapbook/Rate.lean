import Mathlib.Algebra.Order.Ring.Nat
import Mathlib.Data.Nat.Bitwise
import Mathlib.Tactic.Ring
import Mathlib.Tactic.Linarith

/-! # Exact rates on 64-bit amounts

The order book multiplies and divides 64-bit amounts through 128-bit products: a
schoolbook multiplication by 32-bit halves, a restoring bit-by-bit division, the
floor of a scaled amount and the comparison of two rates. Each is what it is over
the natural numbers.
-/

namespace Obscura.Swapbook

/-- The 128-bit product of two amounts, as its high and low words. -/
def mul64 (a b : UInt64) : UInt64 × UInt64 :=
  let mask : UInt64 := 0xffffffff
  let a0 := a &&& mask
  let a1 := a >>> 32
  let b0 := b &&& mask
  let b1 := b >>> 32
  let lo0 := a0 * b0
  let mid1 := a1 * b0
  let mid2 := a0 * b1
  let hiPart := a1 * b1
  let carry := (lo0 >>> 32 + (mid1 &&& mask) + (mid2 &&& mask)) >>> 32
  let lo := lo0 + mid1 <<< 32 + mid2 <<< 32
  let hi := hiPart + mid1 >>> 32 + mid2 >>> 32 + carry
  (hi, lo)

/-- The registers of the division loop. -/
structure Division where
  hi : UInt64
  lo : UInt64
  q : UInt64 := 0
  r : UInt64 := 0

/-- One round: shift the next bit of the dividend into the remainder and subtract
the divisor if it fits. -/
def Division.step (d : UInt64) (s : Division) : Division :=
  let rTop := s.r >>> 63
  let r := s.r <<< 1 ||| s.hi >>> 63
  let hi := s.hi <<< 1 ||| s.lo >>> 63
  let lo := s.lo <<< 1
  let q := s.q <<< 1
  if rTop = 1 ∨ d ≤ r then { hi, lo, q := q ||| 1, r := r - d } else { hi, lo, q, r }

/-- `bits.Div64`, and zero for a divisor of zero. -/
def div128by64 (hi lo d : UInt64) : UInt64 × UInt64 :=
  if d = 0 then
    (0, 0)
  else
    let s := (Division.step d)^[128] { hi, lo }
    (s.q, s.r)

/-- `mulDivFloor`: a product of two words over a word, rounded down. -/
def mulDivFloor (a b c : UInt64) : UInt64 :=
  let product := mul64 a b
  (div128by64 product.1 product.2 c).1

/-- Compare the fractions `n1/d1` and `n2/d2`. -/
def cmpRate (n1 d1 n2 d2 : UInt64) : Ordering :=
  let left := mul64 n1 d2
  let right := mul64 n2 d1
  if left.1 ≠ right.1 then
    if left.1 < right.1 then .lt else .gt
  else if left.2 ≠ right.2 then
    if left.2 < right.2 then .lt else .gt
  else
    .eq

/-! ## Multiplication -/

theorem toNat_lowHalf (a : UInt64) : (a &&& 0xffffffff).toNat = a.toNat % 2 ^ 32 := by
  rw [UInt64.toNat_and]
  exact Nat.and_two_pow_sub_one_eq_mod a.toNat 32

theorem toNat_highHalf (a : UInt64) : (a >>> 32).toNat = a.toNat / 2 ^ 32 := by
  rw [UInt64.toNat_shiftRight, Nat.shiftRight_eq_div_pow]
  rfl

theorem toNat_shiftHalf (a : UInt64) : (a <<< 32).toNat = a.toNat * 2 ^ 32 % 2 ^ 64 := by
  rw [UInt64.toNat_shiftLeft, Nat.shiftLeft_eq]
  rfl

theorem half_mul_le {x y : Nat} (left : x < 2 ^ 32) (right : y < 2 ^ 32) :
    x * y ≤ (2 ^ 32 - 1) * (2 ^ 32 - 1) :=
  Nat.mul_le_mul (by omega) (by omega)

/-- The two words of a product. -/
theorem mul64_eq (a b : UInt64) :
    (mul64 a b).1.toNat * 2 ^ 64 + (mul64 a b).2.toNat = a.toNat * b.toNat := by
  have aBound := a.toNat_lt
  have bBound := b.toNat_lt
  obtain ⟨a0, a0Eq⟩ : ∃ x, x = a.toNat % 2 ^ 32 := ⟨_, rfl⟩
  obtain ⟨a1, a1Eq⟩ : ∃ x, x = a.toNat / 2 ^ 32 := ⟨_, rfl⟩
  obtain ⟨b0, b0Eq⟩ : ∃ x, x = b.toNat % 2 ^ 32 := ⟨_, rfl⟩
  obtain ⟨b1, b1Eq⟩ : ∃ x, x = b.toNat / 2 ^ 32 := ⟨_, rfl⟩
  have a0Lt : a0 < 2 ^ 32 := by omega
  have a1Lt : a1 < 2 ^ 32 := by omega
  have b0Lt : b0 < 2 ^ 32 := by omega
  have b1Lt : b1 < 2 ^ 32 := by omega
  have low := half_mul_le a0Lt b0Lt
  have mid1 := half_mul_le a1Lt b0Lt
  have mid2 := half_mul_le a0Lt b1Lt
  have high := half_mul_le a1Lt b1Lt
  have product : a.toNat * b.toNat =
      a1 * b1 * 2 ^ 64 + (a1 * b0 + a0 * b1) * 2 ^ 32 + a0 * b0 := by
    have aSplit : a.toNat = a1 * 2 ^ 32 + a0 := by omega
    have bSplit : b.toNat = b1 * 2 ^ 32 + b0 := by omega
    rw [aSplit, bSplit]
    ring
  rw [product]
  simp only [mul64, UInt64.toNat_add, UInt64.toNat_mul, toNat_lowHalf, toNat_highHalf,
    toNat_shiftHalf, ← a0Eq, ← a1Eq, ← b0Eq, ← b1Eq]
  generalize a0 * b0 = x at *
  generalize a1 * b0 = y at *
  generalize a0 * b1 = z at *
  generalize a1 * b1 = t at *
  omega

/-! ## Division -/

theorem toNat_topBit (a : UInt64) : (a >>> 63).toNat = a.toNat / 2 ^ 63 := by
  rw [UInt64.toNat_shiftRight, Nat.shiftRight_eq_div_pow]
  rfl

theorem toNat_shiftIn (a b : UInt64) :
    (a <<< 1 ||| b >>> 63).toNat = a.toNat * 2 % 2 ^ 64 + b.toNat / 2 ^ 63 := by
  have bit : b.toNat / 2 ^ 63 < 2 := by
    have bound := b.toNat_lt
    omega
  have even : a.toNat * 2 % 2 ^ 64 = a.toNat % 2 ^ 63 * 2 := by omega
  have doubled : (a <<< 1).toNat = a.toNat % 2 ^ 63 * 2 := by
    rw [UInt64.toNat_shiftLeft, Nat.shiftLeft_eq, ← even]
    rfl
  rw [UInt64.toNat_or, doubled, toNat_topBit, even, mul_comm]
  exact (Nat.two_pow_add_eq_or_of_lt (i := 1) bit _).symm

/-- After `count` rounds over a dividend the consumed bits `c` are divided: the
quotient so far is known up to a word, and the remainder is proper. -/
structure Division.Divides (dividend d count : Nat) (s : Division) : Prop where
  proper : s.r.toNat < d
  consumed : ∃ c quotient, dividend * 2 ^ count = c * 2 ^ 128 + (s.hi.toNat * 2 ^ 64 + s.lo.toNat) ∧
    c = quotient * d + s.r.toNat ∧ s.q.toNat = quotient % 2 ^ 64

theorem toNat_shiftOne (a : UInt64) : (a <<< 1 ||| 1).toNat = a.toNat * 2 % 2 ^ 64 + 1 :=
  toNat_shiftIn a ((1 : UInt64) <<< 63)

theorem toNat_double (a : UInt64) : (a <<< 1).toNat = a.toNat * 2 % 2 ^ 64 := by
  rw [UInt64.toNat_shiftLeft, Nat.shiftLeft_eq]
  rfl

/-- A round consumes one more bit. -/
theorem Division.step_divides {dividend count : Nat} {d : UInt64} {s : Division}
    (divides : s.Divides dividend d.toNat count) :
    (s.step d).Divides dividend d.toNat (count + 1) := by
  obtain ⟨proper, c, quotient, consumed, divided, word⟩ := divides
  have rBound := s.r.toNat_lt
  have hiBound := s.hi.toNat_lt
  have loBound := s.lo.toNat_lt
  have dBound := d.toNat_lt
  have doubled : dividend * 2 ^ (count + 1) = 2 * (dividend * 2 ^ count) := by
    rw [pow_succ]
    ring
  have hi := toNat_shiftIn s.hi s.lo
  have lo := toNat_double s.lo
  have r := toNat_shiftIn s.r s.hi
  have top := toNat_topBit s.r
  have bit : s.hi.toNat / 2 ^ 63 < 2 := by omega
  have next : dividend * 2 ^ (count + 1) = (2 * c + s.hi.toNat / 2 ^ 63) * 2 ^ 128 +
      ((s.hi <<< 1 ||| s.lo >>> 63).toNat * 2 ^ 64 + (s.lo <<< 1).toNat) := by
    rw [doubled, consumed, hi, lo]
    omega
  -- the remainder with the next bit shifted in, before a subtraction
  obtain ⟨wide, wideEq⟩ : ∃ x, x = 2 * s.r.toNat + s.hi.toNat / 2 ^ 63 := ⟨_, rfl⟩
  have shifted : (s.r <<< 1 ||| s.hi >>> 63).toNat = wide % 2 ^ 64 := by omega
  have fits : (s.r >>> 63 = 1 ∨ d ≤ s.r <<< 1 ||| s.hi >>> 63) ↔ d.toNat ≤ wide := by
    rw [UInt64.le_iff_toNat_le, shifted, ← UInt64.toNat_inj, top]
    change s.r.toNat / 2 ^ 63 = 1 ∨ _ ↔ _
    omega
  by_cases subtract : d.toNat ≤ wide
  · have taken : s.step d =
        { hi := s.hi <<< 1 ||| s.lo >>> 63, lo := s.lo <<< 1
          q := s.q <<< 1 ||| 1, r := (s.r <<< 1 ||| s.hi >>> 63) - d } :=
      if_pos (fits.mpr subtract)
    have rest : ((s.r <<< 1 ||| s.hi >>> 63) - d).toNat = wide - d.toNat := by
      rw [UInt64.toNat_sub, shifted]
      omega
    rw [taken]
    refine ⟨by rw [rest]; omega, 2 * c + s.hi.toNat / 2 ^ 63, 2 * quotient + 1, next, ?_, ?_⟩
    · rw [rest, divided, wideEq]
      have : (2 * quotient + 1) * d.toNat = 2 * (quotient * d.toNat) + d.toNat := by ring
      omega
    · rw [toNat_shiftOne, word]
      omega
  · have kept : s.step d =
        { hi := s.hi <<< 1 ||| s.lo >>> 63, lo := s.lo <<< 1
          q := s.q <<< 1, r := s.r <<< 1 ||| s.hi >>> 63 } :=
      if_neg fun holds => subtract (fits.mp holds)
    have small : wide < 2 ^ 64 := by omega
    rw [Nat.mod_eq_of_lt small] at shifted
    rw [kept]
    refine ⟨by rw [shifted]; omega, 2 * c + s.hi.toNat / 2 ^ 63, 2 * quotient, next, ?_, ?_⟩
    · rw [shifted, divided, wideEq]
      have : 2 * quotient * d.toNat = 2 * (quotient * d.toNat) := by ring
      omega
    · rw [toNat_double, word]
      omega

theorem Division.run_divides {dividend : Nat} {d : UInt64} (rounds : Nat) {s : Division}
    {count : Nat} (divides : s.Divides dividend d.toNat count) :
    ((Division.step d)^[rounds] s).Divides dividend d.toNat (count + rounds) := by
  induction rounds with
  | zero => exact divides
  | succ rounds ih =>
    rw [Function.iterate_succ_apply']
    exact Division.step_divides ih

/-- The division is exact up to a word. -/
theorem div128by64_eq {hi lo d : UInt64} (nonzero : d ≠ 0) :
    (div128by64 hi lo d).1.toNat = (hi.toNat * 2 ^ 64 + lo.toNat) / d.toNat % 2 ^ 64 := by
  have positive : 0 < d.toNat := by
    refine Nat.pos_of_ne_zero fun zero => nonzero ?_
    exact UInt64.toNat_inj.mp zero
  have start : Division.Divides (hi.toNat * 2 ^ 64 + lo.toNat) d.toNat 0 { hi, lo } :=
    ⟨positive, 0, 0, by simp, by simp, rfl⟩
  obtain ⟨proper, c, quotient, consumed, divided, word⟩ := Division.run_divides 128 start
  have rest := ((Division.step d)^[128] { hi, lo }).hi.toNat_lt
  have rest' := ((Division.step d)^[128] { hi, lo }).lo.toNat_lt
  -- all bits are consumed
  have whole : c = hi.toNat * 2 ^ 64 + lo.toNat := by omega
  rw [div128by64, if_neg nonzero, word, ← whole, divided, Nat.add_comm, Nat.add_mul_div_right _ _ positive,
    Nat.div_eq_of_lt proper, Nat.zero_add]

theorem mulDivFloor_eq {a b c : UInt64} (nonzero : c ≠ 0)
    (fits : a.toNat * b.toNat / c.toNat < 2 ^ 64) :
    (mulDivFloor a b c).toNat = a.toNat * b.toNat / c.toNat := by
  rw [mulDivFloor, div128by64_eq nonzero, mul64_eq, Nat.mod_eq_of_lt fits]

/-! ## Comparison -/

/-- Two rates compare as their cross products. -/
theorem cmpRate_eq (n1 d1 n2 d2 : UInt64) :
    cmpRate n1 d1 n2 d2 = compare (n1.toNat * d2.toNat) (n2.toNat * d1.toNat) := by
  have left := mul64_eq n1 d2
  have right := mul64_eq n2 d1
  have leftLow := (mul64 n1 d2).2.toNat_lt
  have rightLow := (mul64 n2 d1).2.toNat_lt
  rw [← left, ← right]
  simp only [cmpRate, ne_eq, ← UInt64.toNat_inj, UInt64.lt_iff_toNat_lt]
  split_ifs with high low lowLess highLess
  · have same : (mul64 n1 d2).1.toNat * 2 ^ 64 + (mul64 n1 d2).2.toNat =
        (mul64 n2 d1).1.toNat * 2 ^ 64 + (mul64 n2 d1).2.toNat := by
      rw [high, low]
    exact (Nat.compare_eq_eq.mpr same).symm
  · symm
    rw [Nat.compare_eq_lt]
    omega
  · symm
    rw [Nat.compare_eq_gt]
    omega
  · symm
    rw [Nat.compare_eq_lt]
    omega
  · symm
    rw [Nat.compare_eq_gt]
    omega

end Obscura.Swapbook
