import Mathlib.Algebra.Group.Basic
import Mathlib.Data.Nat.Size
import Mathlib.Tactic.Ring

/-! # Exponentiation by windows

An exponent is read from the top in windows of a fixed number of bits. Between two windows the
result is squared as many times as a window has bits, and a window that is not zero multiplies
it with an entry of a table of small powers. The loop is written over a bare operation; over a
monoid it computes the power.
-/

namespace Windowed

section Loop

variable {α : Type*} (op : α → α → α) (one : α)

/-- The table of small powers. -/
def entry (base : α) : Nat → α
  | 0 => one
  | 1 => base
  | i + 2 => op (entry base (i + 1)) base

/-- `s` squarings. -/
def square : Nat → α → α
  | 0, result => result
  | s + 1, result => square s (op result result)

/-- The bits from `pos + count` down to `pos` are shifted into the window. -/
def window (e nbits pos : Nat) : (count : Nat) → Nat → Nat
  | 0, win => win
  | s + 1, win =>
    window e nbits pos s
      (if pos + s < nbits ∧ e.testBit (pos + s) then win <<< 1 ||| 1 else win <<< 1)

/-- The windows of the exponent, from the highest down. -/
def loop (w : Nat) (base : α) (e nbits : Nat) : (windows : Nat) → α → α
  | 0, result => result
  | k + 1, result =>
    let squared := square op w result
    let win := window e nbits (k * w) w 0
    loop w base e nbits k (if win ≠ 0 then op squared (entry op one base win) else squared)

/-- The top window is aligned to a multiple of the window size. -/
def windowed (w : Nat) (base : α) (e : Nat) : α :=
  loop op one w base e e.size ((e.size + w - 1) / w) one

end Loop

section Map

variable {α β : Type*} {op : α → α → α} {op' : β → β → β} {one : α} {one' : β} {f : α → β}
  (onOp : ∀ a b, f (op a b) = op' (f a) (f b)) (onOne : f one = one')

include onOp

theorem map_square (s : Nat) (result : α) :
    f (square op s result) = square op' s (f result) := by
  induction s generalizing result with
  | zero => rfl
  | succ s ih => rw [square, square, ih, onOp]

include onOne

theorem map_entry (base : α) (i : Nat) :
    f (entry op one base i) = entry op' one' (f base) i := by
  induction i using Nat.twoStepInduction with
  | zero => exact onOne
  | one => rfl
  | more i _ ih => rw [entry, entry, onOp, ih]

theorem map_loop (w : Nat) (base : α) (e nbits k : Nat) (result : α) :
    f (loop op one w base e nbits k result) = loop op' one' w (f base) e nbits k (f result) := by
  induction k generalizing result with
  | zero => rfl
  | succ k ih =>
    rw [loop, loop, ih]
    congr 1
    rw [apply_ite f, onOp, map_square onOp, map_entry onOp onOne]

theorem map_windowed (w : Nat) (base : α) (e : Nat) :
    f (windowed op one w base e) = windowed op' one' w (f base) e := by
  rw [windowed, windowed, map_loop onOp onOne, onOne]

end Map

section Bits

theorem shifted (win : Nat) (bit : Bool) :
    (if bit then win <<< 1 ||| 1 else win <<< 1) = 2 * win + bit.toNat := by
  cases bit with
  | false => simp [Nat.shiftLeft_eq, mul_comm]
  | true =>
    rw [if_pos rfl, ← Nat.shiftLeft_add_eq_or_of_lt (by decide), Nat.shiftLeft_eq]
    simp [mul_comm]

theorem bit_below (e i : Nat) : (i < e.size ∧ e.testBit i) ↔ e.testBit i := by
  refine ⟨And.right, fun set => ⟨?_, set⟩⟩
  exact Nat.lt_size.mpr (Nat.ge_two_pow_of_testBit set)

theorem window_eq (e pos count win : Nat) :
    window e e.size pos count win = win * 2 ^ count + e / 2 ^ pos % 2 ^ count := by
  induction count generalizing win with
  | zero => simp [window, Nat.mod_one]
  | succ s ih =>
    have bit : (e.testBit (pos + s)).toNat = e / 2 ^ pos / 2 ^ s % 2 := by
      rw [Nat.toNat_testBit, Nat.div_div_eq_div_mul, pow_add]
    simp only [window, bit_below]
    rw [ih, shifted, bit, Nat.mod_pow_succ, pow_succ]
    ring

end Bits

section Monoid

variable {M : Type*} [Monoid M]

theorem entry_eq (base : M) (i : Nat) : entry (· * ·) 1 base i = base ^ i := by
  induction i using Nat.twoStepInduction with
  | zero => rw [entry, pow_zero]
  | one => rw [entry, pow_one]
  | more i _ ih => rw [entry, ih, ← pow_succ]

theorem square_eq (s : Nat) (result : M) : square (· * ·) s result = result ^ 2 ^ s := by
  induction s generalizing result with
  | zero => rw [square, pow_zero, pow_one]
  | succ s ih => rw [square, ih, ← pow_two, ← pow_mul, ← pow_succ']

theorem loop_eq (w : Nat) (base : M) (e k : Nat) :
    loop (· * ·) 1 w base e e.size k (base ^ (e / 2 ^ (k * w))) = base ^ e := by
  induction k with
  | zero => rw [loop, zero_mul, pow_zero, Nat.div_one]
  | succ k ih =>
    have digits : 2 ^ w * (e / 2 ^ ((k + 1) * w)) + e / 2 ^ (k * w) % 2 ^ w =
        e / 2 ^ (k * w) := by
      rw [add_mul, one_mul, pow_add, ← Nat.div_div_eq_div_mul]
      exact Nat.div_add_mod _ _
    rw [loop, square_eq, window_eq, zero_mul, zero_add, entry_eq, ← pow_mul, mul_comm _ (2 ^ w)]
    split_ifs with digit
    · rw [← pow_add, digits, ih]
    · rw [not_not.mp digit, add_zero] at digits
      rw [digits, ih]

theorem windowed_eq {w : Nat} (positive : 0 < w) (base : M) (e : Nat) :
    windowed (· * ·) 1 w base e = base ^ e := by
  have above : e / 2 ^ ((e.size + w - 1) / w * w) = 0 := by
    refine Nat.div_eq_of_lt ((Nat.lt_size_self e).trans_le (Nat.pow_le_pow_right two_pos ?_))
    have round := Nat.div_add_mod (e.size + w - 1) w
    have rest := Nat.mod_lt (e.size + w - 1) positive
    rw [mul_comm] at round
    omega
  have run := loop_eq w base e ((e.size + w - 1) / w)
  rwa [above, pow_zero] at run

end Monoid

end Windowed
