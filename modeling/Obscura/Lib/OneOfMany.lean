import Mathlib.LinearAlgebra.Lagrange
import Mathlib.Algebra.Polynomial.BigOperators
import Mathlib.Algebra.BigOperators.Group.List.Basic
import Mathlib.Algebra.Module.BigOperators
import Mathlib.Tactic.LinearCombination
import Mathlib.Tactic.Module

/-! # Selector polynomials

The algebra of one-out-of-many proofs. The digits of a hidden index and one offset
for each digit determine a polynomial for every index; its coefficient at the
number of digits is one for the hidden index and zero for every other. That
coefficient of a polynomial is a weighted sum of its values at enough points, with
weights that depend on the points only, so one weighted sum of the same shape reads
it off from values in any module.
-/

namespace OneOfMany

open Polynomial

variable {K : Type} [Field K]

/-! ## Reading off the top coefficient -/

section Weights

variable [DecidableEq K]

/-- The weight of a point in the top coefficient. -/
def weight (points : List K) (point : K) : K :=
  ∏ other ∈ points.toFinset.erase point, (point - other)⁻¹

theorem sum_weight_eval {points : List K} (distinct : points.Nodup) {P : K[X]} {m : Nat}
    (enough : points.length = m + 1) (degree : P.natDegree ≤ m) :
    (points.map fun point => weight points point * P.eval point).sum = P.coeff m := by
  have size : points.toFinset.card = m + 1 := by
    rw [List.toFinset_card_of_nodup distinct, enough]
  have below : P.degree < points.toFinset.card := by
    rw [size]
    exact lt_of_le_of_lt P.degree_le_natDegree (by exact_mod_cast Nat.lt_succ_of_le degree)
  have read := Lagrange.coeff_eq_sum (v := id) (Set.injOn_id _) below
  rw [size, Nat.add_sub_cancel] at read
  rw [read, ← List.sum_toFinset _ distinct]
  apply Finset.sum_congr rfl
  intro point _
  simp only [weight, id, Finset.prod_inv_distrib, div_eq_mul_inv]
  exact mul_comm _ _

variable {V : Type} [AddCommGroup V] [Module K V]

/-- Powers below the top one carry no weight. -/
theorem sum_weight_lower {points : List K} (distinct : points.Nodup) {m : Nat}
    (enough : points.length = m + 1) (coefficient : Nat → V) :
    (points.map fun point =>
      weight points point • ∑ k ∈ Finset.range m, point ^ k • coefficient k).sum = 0 := by
  have vanishes : ∀ k ∈ Finset.range m,
      (points.map fun point => weight points point * point ^ k).sum = 0 := by
    intro k inside
    have read := sum_weight_eval distinct enough
      (natDegree_X_pow_le (R := K) k |>.trans (Finset.mem_range.mp inside).le)
    simp only [eval_pow, eval_X] at read
    rw [read, coeff_X_pow, if_neg (Finset.mem_range.mp inside).ne']
  rw [← List.sum_toFinset _ distinct]
  simp only [Finset.smul_sum, smul_smul]
  rw [Finset.sum_comm]
  apply Finset.sum_eq_zero
  intro k inside
  rw [← Finset.sum_smul, List.sum_toFinset _ distinct, vanishes k inside, zero_smul]

/-- From the equations of one ring at enough challenges: the combination of the ring that the
top coefficients select is a multiple of the base point. -/
theorem sum_coeff_ring {τ : Type} {ts : List τ} {x : τ → K} (z : τ → K) {m : Nat} (n : Nat)
    (P : Nat → K[X]) (ring cd : Nat → V) (base : V) (distinct : (ts.map x).Nodup)
    (enough : ts.length = m + 1)
    (degree : ∀ i, (P i).natDegree ≤ m)
    (equation : ∀ t ∈ ts, ∑ i ∈ Finset.range n, (P i).eval (x t) • ring i -
      ∑ k ∈ Finset.range m, x t ^ k • cd k = z t • base) :
    ∑ i ∈ Finset.range n, (P i).coeff m • ring i =
      (ts.map fun t => weight (ts.map x) (x t) * z t).sum • base := by
  have size : (ts.map x).length = m + 1 := (List.length_map x).trans enough
  have overPoints : ∀ (g : K → V),
      ((ts.map x).map g).sum = (ts.map fun t => g (x t)).sum := by
    intro g
    rw [List.map_map]
    rfl
  have scaled : ∀ list : List τ, (∀ t ∈ list, t ∈ ts) →
      (list.map fun t => weight (ts.map x) (x t) * z t).sum • base =
        (list.map fun t => weight (ts.map x) (x t) •
          ∑ i ∈ Finset.range n, (P i).eval (x t) • ring i).sum -
        (list.map fun t => weight (ts.map x) (x t) •
          ∑ k ∈ Finset.range m, x t ^ k • cd k).sum := by
    intro list
    induction list with
    | nil => simp
    | cons t list ih =>
      intro listed
      have step := equation t (listed t List.mem_cons_self)
      simp only [List.map_cons, List.sum_cons, add_smul, mul_smul]
      rw [ih fun t' member => listed t' (List.mem_cons_of_mem t member), ← step, smul_sub]
      abel
  rw [scaled ts fun _ member => member,
    ← overPoints fun point => weight (ts.map x) point • ∑ k ∈ Finset.range m, point ^ k • cd k,
    sum_weight_lower distinct size, sub_zero,
    ← overPoints fun point => weight (ts.map x) point •
      ∑ i ∈ Finset.range n, (P i).eval point • ring i, ← List.sum_toFinset _ distinct]
  simp only [Finset.smul_sum, smul_smul]
  rw [Finset.sum_comm]
  apply Finset.sum_congr rfl
  intro i _
  rw [← Finset.sum_smul, List.sum_toFinset _ distinct, sum_weight_eval distinct size (degree i)]

end Weights

/-! ## Committed digits

The equations of one digit: `cl` commits to the digit, `ca` to the offset, and `cb`
cancels the product of the digit and its complement.
-/

section Digits

variable {V : Type} [AddCommGroup V] [Module K V] {base value cl ca cb : V}
  {x₀ x₁ f₀ f₁ z₀ z₁ w₀ w₁ digit blind : K}

theorem digit_opening (apart : x₀ ≠ x₁) (first : x₀ • cl + ca = f₀ • value + z₀ • base)
    (second : x₁ • cl + ca = f₁ • value + z₁ • base) :
    cl = ((f₀ - f₁) / (x₀ - x₁)) • value + ((z₀ - z₁) / (x₀ - x₁)) • base := by
  have nonzero : x₀ - x₁ ≠ 0 := sub_ne_zero.mpr apart
  have difference : (x₀ - x₁) • cl = (f₀ - f₁) • value + (z₀ - z₁) • base := by
    calc (x₀ - x₁) • cl = (x₀ • cl + ca) - (x₁ • cl + ca) := by module
      _ = (f₀ • value + z₀ • base) - (f₁ • value + z₁ • base) := by rw [first, second]
      _ = (f₀ - f₁) • value + (z₀ - z₁) • base := by module
  rw [div_eq_inv_mul, div_eq_inv_mul, mul_smul, mul_smul, ← smul_add, ← difference, smul_smul,
    inv_mul_cancel₀ nonzero, one_smul]

theorem digit_relation (apart : x₀ ≠ x₁) (opened : cl = digit • value + blind • base)
    (answers : f₀ - f₁ = digit * (x₀ - x₁))
    (first : (x₀ - f₀) • cl + cb = w₀ • base) (second : (x₁ - f₁) • cl + cb = w₁ • base) :
    ((1 - digit) * blind - (w₀ - w₁) / (x₀ - x₁)) • base + ((1 - digit) * digit) • value = 0 := by
  have nonzero : x₀ - x₁ ≠ 0 := sub_ne_zero.mpr apart
  have scalars : (x₀ - f₀) - (x₁ - f₁) = (x₀ - x₁) * (1 - digit) := by
    linear_combination -answers
  have difference : ((x₀ - x₁) * (1 - digit)) • cl = (w₀ - w₁) • base := by
    calc ((x₀ - x₁) * (1 - digit)) • cl = ((x₀ - f₀) • cl + cb) - ((x₁ - f₁) • cl + cb) := by
          rw [← scalars]
          module
      _ = w₀ • base - w₁ • base := by rw [first, second]
      _ = (w₀ - w₁) • base := (sub_smul _ _ _).symm
  have product : (1 - digit) • cl = ((w₀ - w₁) / (x₀ - x₁)) • base := by
    rw [div_eq_inv_mul, mul_smul, ← difference, smul_smul, ← mul_assoc, inv_mul_cancel₀ nonzero,
      one_mul]
  rw [sub_smul, ← product, opened]
  module

theorem offset_relation (opened : cl = digit • value + blind • base)
    (first : x₀ • cl + ca = f₀ • value + z₀ • base)
    (second : x₁ • cl + ca = f₁ • value + z₁ • base) :
    ((z₁ - blind * x₁) - (z₀ - blind * x₀)) • base +
      ((f₁ - digit * x₁) - (f₀ - digit * x₀)) • value = 0 := by
  calc ((z₁ - blind * x₁) - (z₀ - blind * x₀)) • base +
        ((f₁ - digit * x₁) - (f₀ - digit * x₀)) • value
      = ((f₁ • value + z₁ • base) - x₁ • (digit • value + blind • base)) -
          ((f₀ • value + z₀ • base) - x₀ • (digit • value + blind • base)) := by module
    _ = ((x₁ • cl + ca) - x₁ • cl) - ((x₀ • cl + ca) - x₀ • cl) := by rw [first, second, opened]
    _ = 0 := by module

end Digits

/-! ## The selectors -/

/-- The polynomial of an index: the product of `digit j * x + offset j` over its one
digits and of `x - (digit j * x + offset j)` over its zero digits. -/
noncomputable def selector (digit offset : Nat → K) (m i : Nat) : K[X] :=
  ∏ j ∈ Finset.range m, if i.testBit j then C (digit j) * X + C (offset j)
    else C (1 - digit j) * X + C (-offset j)

variable (digit offset : Nat → K) (m i : Nat)

theorem natDegree_selector_le : (selector digit offset m i).natDegree ≤ m := by
  have linear := natDegree_prod_le (Finset.range m) fun j => if i.testBit j then
    C (digit j) * X + C (offset j) else C (1 - digit j) * X + C (-offset j)
  refine linear.trans ((Finset.sum_le_card_nsmul _ _ 1 fun j _ => ?_).trans ?_)
  · split_ifs
    · exact natDegree_linear_le
    · exact natDegree_linear_le
  · simp

variable {digit offset m i}

theorem eval_selector (x : K) :
    (selector digit offset m i).eval x = ∏ j ∈ Finset.range m,
      if i.testBit j then digit j * x + offset j else x - (digit j * x + offset j) := by
  rw [selector, eval_prod]
  apply Finset.prod_congr rfl
  intro j _
  split_ifs
  · simp
  · simp only [eval_add, eval_mul, eval_C, eval_X]
    ring

theorem coeff_selector : (selector digit offset m i).coeff m =
    ∏ j ∈ Finset.range m, if i.testBit j then digit j else 1 - digit j := by
  have top := coeff_prod_of_natDegree_le (s := Finset.range m)
    (fun j => if i.testBit j then C (digit j) * X + C (offset j)
      else C (1 - digit j) * X + C (-offset j)) 1 fun j _ => by
      split_ifs
      · exact natDegree_linear_le
      · exact natDegree_linear_le
  rw [Finset.card_range, mul_one] at top
  rw [selector, top]
  apply Finset.prod_congr rfl
  intro j _
  split_ifs
  · simp
  · simp

/-- The digits of an index select that index. -/
theorem coeff_selector_index {l : Nat} (hidden : l < 2 ^ m) (inside : i < 2 ^ m)
    (digits : ∀ j < m, digit j = if l.testBit j then 1 else 0) :
    (selector digit offset m i).coeff m = if i = l then 1 else 0 := by
  rw [coeff_selector]
  split_ifs with same
  · apply Finset.prod_eq_one
    intro j below
    rw [digits j (Finset.mem_range.mp below), same]
    split_ifs
    · rfl
    · exact sub_zero 1
  · obtain ⟨j, differ⟩ : ∃ j, i.testBit j ≠ l.testBit j := by
      by_contra none
      push Not at none
      exact same (Nat.eq_of_testBit_eq none)
    have below : j < m := by
      by_contra above
      have large := Nat.pow_le_pow_right (n := 2) (by decide) (Nat.le_of_not_lt above)
      rw [Nat.testBit_lt_two_pow (inside.trans_le large),
        Nat.testBit_lt_two_pow (hidden.trans_le large)] at differ
      exact differ rfl
    apply Finset.prod_eq_zero (Finset.mem_range.mpr below)
    rw [digits j below]
    cases first : i.testBit j with
    | true =>
      cases second : l.testBit j with
      | true => exact absurd (first.trans second.symm) differ
      | false => simp
    | false =>
      cases second : l.testBit j with
      | true => simp
      | false => exact absurd (first.trans second.symm) differ

end OneOfMany
