import Mathlib.Data.List.Sort

/-! # Order statistics

What stands at a place of a sorted list, by counting: a property that smaller elements inherit
holds at a place exactly if it holds of more elements than there are places before.
-/

namespace OrderStatistic

variable {α β : Type} [LE α] [DecidableLE α] [Std.Total (α := α) (· ≤ ·)]
  [IsTrans α (· ≤ ·)]

/-- The elements in order. -/
def sorted (values : List α) : List α := values.insertionSort (· ≤ ·)

omit [Std.Total (α := α) (· ≤ ·)] [IsTrans α (· ≤ ·)] in
@[simp] theorem length_sorted (values : List α) : (sorted values).length = values.length :=
  List.length_insertionSort _ _

omit [Std.Total (α := α) (· ≤ ·)] [IsTrans α (· ≤ ·)] in
theorem countP_sorted (p : α → Bool) (values : List α) :
    (sorted values).countP p = values.countP p :=
  (List.perm_insertionSort _ values).countP_eq p

omit [DecidableLE α] [Std.Total (α := α) (· ≤ ·)] [IsTrans α (· ≤ ·)] in
/-- How many satisfy a property decides which of an ordered list do. -/
theorem holds_iff_of_pairwise {values : List α} (ordered : values.Pairwise (· ≤ ·)) {p : α → Bool}
    (down : ∀ a b, a ≤ b → p b = true → p a = true) {k : Nat} {value : α}
    (found : values[k]? = some value) : p value = true ↔ k < values.countP p := by
  induction values generalizing k with
  | nil => cases found
  | cons first values ih =>
    obtain ⟨least, ordered⟩ := List.pairwise_cons.mp ordered
    cases k with
    | zero =>
      obtain rfl := Option.some.inj found
      constructor
      · intro holds
        rw [List.countP_cons_of_pos holds]
        exact Nat.succ_pos _
      · intro counted
        obtain ⟨other, member, holds⟩ := List.countP_pos_iff.mp counted
        rcases List.mem_cons.mp member with rfl | later
        · exact holds
        · exact down _ _ (least other later) holds
    | succ k =>
      rw [List.getElem?_cons_succ] at found
      rw [ih ordered found]
      by_cases holds : p first = true
      · rw [List.countP_cons_of_pos holds, Nat.succ_lt_succ_iff]
      · have none : values.countP p = 0 := by
          rw [List.countP_eq_zero]
          intro other later counted
          exact holds (down _ _ (least other later) counted)
        rw [List.countP_cons_of_neg holds, none]
        exact iff_of_false (Nat.not_lt_zero _) (Nat.not_lt_zero _)

/-- **Counting.** -/
theorem holds_iff {values : List α} {p : α → Bool}
    (down : ∀ a b, a ≤ b → p b = true → p a = true) {k : Nat} {value : α}
    (found : (sorted values)[k]? = some value) : p value = true ↔ k < values.countP p := by
  rw [← countP_sorted p values]
  exact holds_iff_of_pairwise (List.pairwise_insertionSort _ values) down found

theorem le_of_count {values : List α} {bound value : α} {k : Nat}
    (found : (sorted values)[k]? = some value)
    (many : k < values.countP fun other => decide (other ≤ bound)) : value ≤ bound := by
  have trans : ∀ a b : α, a ≤ b → decide (b ≤ bound) = true → decide (a ≤ bound) = true := by
    intro a b below small
    exact decide_eq_true (IsTrans.trans _ _ _ below (of_decide_eq_true small))
  exact of_decide_eq_true ((holds_iff trans found).mpr many)

theorem ge_of_count {values : List α} {bound value : α} {k : Nat}
    (found : (sorted values)[k]? = some value)
    (few : (values.countP fun other => !decide (bound ≤ other)) ≤ k) : bound ≤ value := by
  have trans : ∀ a b : α, a ≤ b → (!decide (bound ≤ b)) = true → (!decide (bound ≤ a)) = true := by
    intro a b below small
    simp only [Bool.not_eq_true', decide_eq_false_iff_not] at small ⊢
    exact fun large => small (IsTrans.trans _ _ _ large below)
  have counted := (holds_iff trans found).not.mpr (Nat.not_lt.mpr few)
  simpa using counted

theorem mono {values : List β} {f g : β → α} (le : ∀ value ∈ values, f value ≤ g value) {k : Nat}
    {low high : α} (found : (sorted (values.map f))[k]? = some low)
    (found' : (sorted (values.map g))[k]? = some high) : low ≤ high := by
  refine le_of_count found ?_
  have trans : ∀ a b : α, a ≤ b → decide (b ≤ high) = true → decide (a ≤ high) = true := by
    intro a b below small
    exact decide_eq_true (IsTrans.trans _ _ _ below (of_decide_eq_true small))
  have refl : high ≤ high := (Std.Total.total high high).elim id id
  refine ((holds_iff trans found').mp (decide_eq_true refl)).trans_le ?_
  rw [List.countP_map, List.countP_map]
  refine List.countP_mono_left fun value member small => ?_
  exact decide_eq_true (IsTrans.trans _ _ _ (le value member) (of_decide_eq_true small))

omit [DecidableLE α] in
/-- A list that is not empty has a least and a greatest element. -/
theorem exists_extremes {values : List α} (nonempty : values ≠ []) :
    ∃ low ∈ values, ∃ high ∈ values, ∀ value ∈ values, low ≤ value ∧ value ≤ high := by
  have refl : ∀ a : α, a ≤ a := fun a => (Std.Total.total a a).elim id id
  induction values with
  | nil => exact absurd rfl nonempty
  | cons first values ih =>
    by_cases last : values = []
    · subst last
      refine ⟨first, List.mem_cons_self, first, List.mem_cons_self, fun value member => ?_⟩
      obtain rfl := List.mem_singleton.mp member
      exact ⟨refl value, refl value⟩
    · obtain ⟨low, lowIn, high, highIn, bounds⟩ := ih last
      have least : ∃ low' ∈ first :: values, low' ≤ first ∧ low' ≤ low := by
        rcases Std.Total.total (r := (· ≤ ·)) first low with below | above
        · exact ⟨first, List.mem_cons_self, refl first, below⟩
        · exact ⟨low, List.mem_cons_of_mem _ lowIn, above, refl low⟩
      have greatest : ∃ high' ∈ first :: values, first ≤ high' ∧ high ≤ high' := by
        rcases Std.Total.total (r := (· ≤ ·)) first high with below | above
        · exact ⟨high, List.mem_cons_of_mem _ highIn, below, refl high⟩
        · exact ⟨first, List.mem_cons_self, refl first, above⟩
      obtain ⟨low', lowIn', lowFirst, lowRest⟩ := least
      obtain ⟨high', highIn', highFirst, highRest⟩ := greatest
      refine ⟨low', lowIn', high', highIn', fun value member => ?_⟩
      rcases List.mem_cons.mp member with rfl | later
      · exact ⟨lowFirst, highFirst⟩
      · obtain ⟨above, below⟩ := bounds value later
        exact ⟨IsTrans.trans _ _ _ lowRest above, IsTrans.trans _ _ _ below highRest⟩

end OrderStatistic
