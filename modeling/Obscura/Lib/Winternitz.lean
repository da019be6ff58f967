import Mathlib.Algebra.BigOperators.Group.List.Basic
import Mathlib.Algebra.Order.BigOperators.Group.List
import Mathlib.Data.Nat.Digits.Defs
import Mathlib.Tactic.Linarith

/-! # Words with a checksum

A word over the digits up to `top`, followed by the digits of how much it lacks: of two such
words with different fronts neither lies below the other.
-/

namespace Winternitz

/-- The digits of a number, the highest first. -/
def places (base : Nat) : (count : Nat) → Nat → List Nat
  | 0, _ => []
  | count + 1, number => number / base ^ count % base :: places base count number

/-- How much a word lacks. -/
def lack (top : Nat) (word : List Nat) : Nat := (word.map (top - ·)).sum

@[simp] theorem length_places (base count number : Nat) :
    (places base count number).length = count := by
  induction count with
  | zero => rfl
  | succ count ih => rw [places, List.length_cons, ih]

theorem getElem?_places {base count number i : Nat} (inside : i < count) :
    (places base count number)[i]? = some (number / base ^ (count - 1 - i) % base) := by
  induction count generalizing i with
  | zero => exact absurd inside (Nat.not_lt_zero i)
  | succ count ih =>
    cases i with
    | zero => rfl
    | succ i =>
      rw [places, List.getElem?_cons_succ, ih (Nat.lt_of_succ_lt_succ inside)]
      congr 4
      omega

/-- A larger number has a larger digit somewhere. -/
theorem exists_place_lt {base count small large : Nat} (less : small < large)
    (fits : large < base ^ count) :
    ∃ i < count, small / base ^ i % base < large / base ^ i % base := by
  induction count generalizing small large with
  | zero =>
    rw [Nat.pow_zero] at fits
    omega
  | succ count ih =>
    have positive : 0 < base := by
      rcases Nat.eq_zero_or_pos base with rfl | positive
      · rw [Nat.zero_pow (Nat.succ_pos count)] at fits
        exact absurd fits (Nat.not_lt_zero large)
      · exact positive
    by_cases last : small % base < large % base
    · exact ⟨0, Nat.succ_pos count, by simpa using last⟩
    · have front : small / base < large / base := by
        by_contra back
        have parts := Nat.div_add_mod small base
        have parts' := Nat.div_add_mod large base
        have scaled := Nat.mul_le_mul_left base (Nat.not_lt.mp back)
        omega
      have room : large / base < base ^ count := by
        rw [Nat.div_lt_iff_lt_mul positive, ← Nat.pow_succ]
        exact fits
      obtain ⟨i, inside, lower⟩ := ih front room
      refine ⟨i + 1, Nat.succ_lt_succ inside, ?_⟩
      rwa [Nat.pow_succ', ← Nat.div_div_eq_div_mul, ← Nat.div_div_eq_div_mul]

theorem lack_le (top : Nat) (word : List Nat) : lack top word ≤ word.length * top := by
  induction word with
  | nil => exact Nat.zero_le _
  | cons digit word ih =>
    rw [lack] at ih ⊢
    rw [List.map_cons, List.sum_cons, List.length_cons, Nat.succ_mul]
    omega

theorem lack_lt {top : Nat} {low high : List Nat} (below : List.Forall₂ (· ≤ ·) low high)
    (bounded : ∀ digit ∈ high, digit ≤ top) (apart : low ≠ high) : lack top high < lack top low := by
  induction below with
  | nil => exact absurd rfl apart
  | @cons first first' low high le rest ih =>
    have within := bounded first' List.mem_cons_self
    have bounds : ∀ digit ∈ high, digit ≤ top :=
      fun digit member => bounded digit (List.mem_cons_of_mem _ member)
    rw [lack, lack, List.map_cons, List.map_cons, List.sum_cons, List.sum_cons]
    by_cases same : low = high
    · subst same
      have strict : first ≠ first' := fun equal => apart (by rw [equal])
      omega
    · have less := ih bounds same
      rw [lack, lack] at less
      omega

theorem exists_above {base top count : Nat} {word other : List Nat}
    (length : word.length = other.length) (bounded : ∀ digit ∈ other, digit ≤ top)
    (fits : lack top word < base ^ count) (apart : word ≠ other) :
    ∃ i low high : Nat, (other ++ places base count (lack top other))[i]? = some low ∧
      (word ++ places base count (lack top word))[i]? = some high ∧ low < high := by
  by_cases above : ∃ i low high : Nat, other[i]? = some low ∧ word[i]? = some high ∧ low < high
  · obtain ⟨i, low, high, found, found', less⟩ := above
    refine ⟨i, low, high, ?_, ?_, less⟩
    · rw [List.getElem?_append_left (List.getElem?_eq_some_iff.mp found).1, found]
    · rw [List.getElem?_append_left (List.getElem?_eq_some_iff.mp found').1, found']
  · have below : List.Forall₂ (· ≤ ·) word other := by
      rw [List.forall₂_iff_get]
      refine ⟨length, fun i inside inside' => ?_⟩
      by_contra more
      exact above ⟨i, _, _, List.getElem?_eq_getElem inside', List.getElem?_eq_getElem inside,
        Nat.not_le.mp more⟩
    have less := lack_lt below bounded apart
    obtain ⟨i, inside, lower⟩ := exists_place_lt less fits
    refine ⟨word.length + (count - 1 - i), _, _, ?_, ?_, lower⟩
    · rw [length, List.getElem?_append_right (Nat.le_add_right _ _), Nat.add_sub_cancel_left,
        getElem?_places (by omega), show count - 1 - (count - 1 - i) = i by omega]
    · rw [List.getElem?_append_right (Nat.le_add_right _ _), Nat.add_sub_cancel_left,
        getElem?_places (by omega), show count - 1 - (count - 1 - i) = i by omega]

end Winternitz
