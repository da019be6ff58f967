import Mathlib.Algebra.GroupWithZero.Nat
import Std.Data.ExtTreeMap.Lemmas
import Mathlib.Algebra.BigOperators.Group.List.Basic
import Mathlib.Algebra.Order.BigOperators.Group.List
import Mathlib.Algebra.Order.Group.Nat
import Mathlib.Data.List.Perm.Basic
import Mathlib.Data.List.Nodup

/-! # Ordered maps

The standard library's extensional tree map over an ordered key type: lookups
after an update, and the total of a weight over the entries of a map with how it
changes when an entry is added or removed. Two maps with the same lookups are
equal.
-/

/-- A finite map whose entries are listed in key order. -/
abbrev OrdMap (α β : Type) [Ord α] := Std.ExtTreeMap α β compare

namespace OrdMap

open Std

variable {α β : Type} [Ord α] [TransOrd α] [LawfulEqOrd α]

theorem lookup_insert [DecidableEq α] (map : OrdMap α β) (key key' : α) (value : β) :
    (map.insert key value)[key']? = if key = key' then some value else map[key']? := by
  rw [ExtTreeMap.getElem?_insert]
  by_cases same : key = key' <;> simp [same]

theorem lookup_erase [DecidableEq α] (map : OrdMap α β) (key key' : α) :
    (map.erase key)[key']? = if key = key' then none else map[key']? := by
  rw [ExtTreeMap.getElem?_erase]
  by_cases same : key = key' <;> simp [same]

theorem insert_same [DecidableEq α] (map : OrdMap α β) {key : α} {value : β}
    (found : map[key]? = some value) : map.insert key value = map := by
  refine ExtTreeMap.ext_getElem? ?_
  intro key'
  rw [lookup_insert]
  split_ifs with same
  · rw [← same, found]
  · rfl

theorem insert_insert [DecidableEq α] (map : OrdMap α β) (key : α) (first second : β) :
    (map.insert key first).insert key second = map.insert key second := by
  refine ExtTreeMap.ext_getElem? ?_
  intro key'
  rw [lookup_insert, lookup_insert, lookup_insert]
  split_ifs <;> rfl

theorem insert_comm [DecidableEq α] (map : OrdMap α β) {key key' : α} (apart : key ≠ key')
    (first second : β) :
    (map.insert key first).insert key' second = (map.insert key' second).insert key first := by
  refine ExtTreeMap.ext_getElem? ?_
  intro other
  simp only [lookup_insert]
  split_ifs with left right
  · exact absurd (right.trans left.symm) apart
  · rfl
  · rfl
  · rfl

theorem insert_erase [DecidableEq α] (map : OrdMap α β) {key : α} {value : β}
    (found : map[key]? = some value) : (map.erase key).insert key value = map := by
  refine ExtTreeMap.ext_getElem? ?_
  intro key'
  rw [lookup_insert, lookup_erase]
  by_cases same : key = key'
  · rw [if_pos same, ← same, found]
  · rw [if_neg same, if_neg same]

theorem erase_absent [DecidableEq α] (map : OrdMap α β) {key : α} (absent : map[key]? = none) :
    map.erase key = map := by
  refine ExtTreeMap.ext_getElem? ?_
  intro key'
  rw [lookup_erase]
  by_cases same : key = key'
  · rw [if_pos same, ← same, absent]
  · rw [if_neg same]

/-! ## Updates by lists -/

/-- Remove keys, one after the other. -/
def eraseAll (map : OrdMap α β) (keys : List α) : OrdMap α β :=
  keys.foldl (fun map key => map.erase key) map

/-- Insert entries, one after the other. -/
def insertAll (map : OrdMap α β) (entries : List (α × β)) : OrdMap α β :=
  entries.foldl (fun map entry => map.insert entry.1 entry.2) map

theorem lookup_eraseAll [DecidableEq α] (map : OrdMap α β) (keys : List α) (key : α) :
    (eraseAll map keys)[key]? = if key ∈ keys then none else map[key]? := by
  induction keys generalizing map with
  | nil => simp [eraseAll]
  | cons head keys ih =>
    change (eraseAll (map.erase head) keys)[key]? = _
    rw [ih, lookup_erase]
    by_cases later : key ∈ keys
    · simp [later]
    · by_cases same : key = head <;> simp [later, same, Ne.symm]

theorem lookup_insertAll_absent [DecidableEq α] (map : OrdMap α β) (entries : List (α × β))
    {key : α} (absent : key ∉ entries.map Prod.fst) :
    (insertAll map entries)[key]? = map[key]? := by
  induction entries generalizing map with
  | nil => rfl
  | cons entry entries ih =>
    rw [List.map_cons, List.mem_cons, not_or] at absent
    change (insertAll (map.insert entry.1 entry.2) entries)[key]? = _
    rw [ih _ absent.2, lookup_insert, if_neg (Ne.symm absent.1)]

theorem lookup_insertAll_present [DecidableEq α] (map : OrdMap α β) {entries : List (α × β)}
    (distinct : (entries.map Prod.fst).Nodup) {key : α} {value : β}
    (member : (key, value) ∈ entries) : (insertAll map entries)[key]? = some value := by
  induction entries generalizing map with
  | nil => exact absurd member List.not_mem_nil
  | cons entry entries ih =>
    rw [List.map_cons, List.nodup_cons] at distinct
    change (insertAll (map.insert entry.1 entry.2) entries)[key]? = _
    rcases List.mem_cons.mp member with rfl | member
    · rw [lookup_insertAll_absent _ _ distinct.1, lookup_insert, if_pos rfl]
    · exact ih _ distinct.2 member

theorem lookup_insertAll_or [DecidableEq α] (map : OrdMap α β) {entries : List (α × β)} {key : α}
    {value : β} (found : (insertAll map entries)[key]? = some value) :
    (key, value) ∈ entries ∨ map[key]? = some value := by
  induction entries generalizing map with
  | nil => exact Or.inr found
  | cons entry entries ih =>
    rcases ih (map.insert entry.1 entry.2) found with member | before
    · exact Or.inl (List.mem_cons_of_mem _ member)
    · rw [lookup_insert] at before
      split_ifs at before with same
      · refine Or.inl (List.mem_cons.mpr (Or.inl ?_))
        rw [← same, ← Option.some.inj before]
      · exact Or.inr before

theorem lookup_insertAll [DecidableEq α] (map : OrdMap α β) {entries : List (α × β)}
    (distinct : (entries.map Prod.fst).Nodup) {key : α} {value : β}
    (found : (insertAll map entries)[key]? = some value) :
    (key, value) ∈ entries ∨ key ∉ entries.map Prod.fst ∧ map[key]? = some value := by
  by_cases listed : key ∈ entries.map Prod.fst
  · obtain ⟨⟨key', value'⟩, member, rfl⟩ := List.mem_map.mp listed
    rw [lookup_insertAll_present map distinct member] at found
    rw [← Option.some.inj found]
    exact Or.inl member
  · rw [lookup_insertAll_absent map entries listed] at found
    exact Or.inr ⟨listed, found⟩

theorem eraseAll_insertAll [DecidableEq α] (map : OrdMap α β) {entries : List (α × β)}
    (keys : List α) (distinct : (entries.map Prod.fst).Nodup)
    (apart : ∀ key ∈ keys, key ∉ entries.map Prod.fst) :
    eraseAll (insertAll map entries) keys = insertAll (eraseAll map keys) entries := by
  refine ExtTreeMap.ext_getElem? ?_
  intro key
  rw [lookup_eraseAll]
  by_cases listed : key ∈ entries.map Prod.fst
  · have kept : key ∉ keys := fun removed => apart key removed listed
    obtain ⟨⟨key', value⟩, member, rfl⟩ := List.mem_map.mp listed
    rw [if_neg kept, lookup_insertAll_present _ distinct member,
      lookup_insertAll_present _ distinct member]
  · rw [lookup_insertAll_absent _ _ listed, lookup_insertAll_absent _ _ listed, lookup_eraseAll]

omit [LawfulEqOrd α] in
theorem eraseAll_append (map : OrdMap α β) (first second : List α) :
    eraseAll map (first ++ second) = eraseAll (eraseAll map first) second := by
  simp [eraseAll]

omit [LawfulEqOrd α] in
theorem insertAll_append (map : OrdMap α β) (first second : List (α × β)) :
    insertAll map (first ++ second) = insertAll (insertAll map first) second := by
  simp [insertAll]

theorem lookup_updated_kept [DecidableEq α] (map : OrdMap α β) {removed : List α}
    {added : List (α × β)} {key : α} {value : β} (found : map[key]? = some value)
    (kept : key ∉ removed) (other : key ∉ added.map Prod.fst) :
    (insertAll (eraseAll map removed) added)[key]? = some value := by
  rw [lookup_insertAll_absent _ _ other, lookup_eraseAll, if_neg kept, found]

theorem lookup_updated_new [DecidableEq α] (map : OrdMap α β) {removed : List α}
    {added : List (α × β)} (distinct : (added.map Prod.fst).Nodup) {key : α}
    (absent : map[key]? = none) :
    (insertAll (eraseAll map removed) added)[key]? = none ↔ key ∉ added.map Prod.fst := by
  constructor
  · intro none listed
    obtain ⟨⟨key', value⟩, member, rfl⟩ := List.mem_map.mp listed
    rw [lookup_insertAll_present _ distinct member] at none
    exact Option.some_ne_none value none
  · intro other
    rw [lookup_insertAll_absent _ _ other, lookup_eraseAll, absent, ite_self]

/-! ## Totals -/

/-- The total weight of a map's values. -/
def total (weight : β → Nat) (map : OrdMap α β) : Nat :=
  (map.toList.map fun entry => weight entry.2).sum

theorem nodup_toList (map : OrdMap α β) : map.toList.Nodup := by
  have distinct := ExtTreeMap.distinct_keys_toList (t := map)
  refine distinct.imp ?_
  rintro entry _ different rfl
  exact different compare_self

theorem toList_insert_perm [DecidableEq α] (map : OrdMap α β) {key : α} (value : β)
    (absent : map[key]? = none) :
    (map.insert key value).toList.Perm ((key, value) :: map.toList) := by
  refine (List.perm_ext_iff_of_nodup (nodup_toList _) ?_).mpr ?_
  · refine List.nodup_cons.mpr ⟨?_, nodup_toList _⟩
    rw [ExtTreeMap.mem_toList_iff_getElem?_eq_some, absent]
    simp
  · rintro ⟨key', value'⟩
    rw [ExtTreeMap.mem_toList_iff_getElem?_eq_some, List.mem_cons,
      ExtTreeMap.mem_toList_iff_getElem?_eq_some, lookup_insert]
    by_cases same : key = key'
    · subst same
      simp [absent, eq_comm]
    · have other : ¬ (key', value') = (key, value) := by
        intro pair
        exact same (congrArg Prod.fst pair).symm
      simp [same, other]

omit [LawfulEqOrd α] in
@[simp] theorem total_empty (weight : β → Nat) : total weight (∅ : OrdMap α β) = 0 := by
  have none : (∅ : OrdMap α β).toList = [] := ExtTreeMap.toList_eq_nil_iff.mpr rfl
  rw [total, none]
  rfl

theorem total_insert [DecidableEq α] (weight : β → Nat) (map : OrdMap α β) {key : α}
    (value : β) (absent : map[key]? = none) :
    total weight (map.insert key value) = weight value + total weight map := by
  have perm := (toList_insert_perm map value absent).map fun entry => weight entry.2
  simpa [total] using perm.sum_eq

theorem total_erase [DecidableEq α] (weight : β → Nat) (map : OrdMap α β) {key : α}
    {value : β} (found : map[key]? = some value) :
    total weight (map.erase key) + weight value = total weight map := by
  have absent : (map.erase key)[key]? = none := by
    rw [lookup_erase, if_pos rfl]
  have added := total_insert weight (map.erase key) value absent
  rw [insert_erase map found] at added
  omega

/-- The total after insertions under new keys. -/
theorem total_insertAll [DecidableEq α] (weight : β → Nat) (map : OrdMap α β)
    {entries : List (α × β)} (distinct : (entries.map Prod.fst).Nodup)
    (absent : ∀ entry ∈ entries, map[entry.1]? = none) :
    total weight (insertAll map entries) =
      total weight map + (entries.map fun entry => weight entry.2).sum := by
  induction entries generalizing map with
  | nil => simp [insertAll]
  | cons entry entries ih =>
    rw [List.map_cons, List.nodup_cons] at distinct
    have later : ∀ other ∈ entries, (map.insert entry.1 entry.2)[other.1]? = none := by
      intro other member
      have different : entry.1 ≠ other.1 := fun same =>
        distinct.1 (same ▸ List.mem_map_of_mem member)
      rw [lookup_insert, if_neg different]
      exact absent other (List.mem_cons_of_mem _ member)
    change total weight (insertAll (map.insert entry.1 entry.2) entries) = _
    rw [ih _ distinct.2 later, total_insert weight map entry.2 (absent entry (by simp)),
      List.map_cons, List.sum_cons]
    omega

/-- The total after keys have been erased. -/
theorem total_eraseAll [DecidableEq α] (weight : β → Nat) (map : OrdMap α β) {keys : List α}
    (distinct : keys.Nodup) (present : ∀ key ∈ keys, map[key]? ≠ none) :
    total weight (eraseAll map keys) + (keys.map fun key => map[key]?.elim 0 weight).sum =
      total weight map := by
  induction keys generalizing map with
  | nil => simp [eraseAll]
  | cons head keys ih =>
    rw [List.nodup_cons] at distinct
    have unchanged : ∀ key ∈ keys, (map.erase head)[key]? = map[key]? := by
      intro key member
      have different : head ≠ key := fun same => distinct.1 (same ▸ member)
      rw [lookup_erase, if_neg different]
    have later := ih (map.erase head) distinct.2 fun key member => by
      rw [unchanged key member]
      exact present key (List.mem_cons_of_mem _ member)
    have sums : (keys.map fun key => (map.erase head)[key]?.elim 0 weight) =
        keys.map fun key => map[key]?.elim 0 weight :=
      List.map_congr_left fun key member => by rw [unchanged key member]
    obtain ⟨value, found⟩ := Option.ne_none_iff_exists'.mp (present head (by simp))
    have removed := total_erase weight map found
    rw [sums] at later
    change total weight (eraseAll (map.erase head) keys) + _ = _
    rw [List.map_cons, List.sum_cons, found, Option.elim_some]
    omega

/-! ## Sums -/

variable {M : Type} [AddCommMonoid M]

/-- The sum of a weight over a map's values. -/
def sum (weight : β → M) (map : OrdMap α β) : M :=
  (map.toList.map fun entry => weight entry.2).sum

omit [LawfulEqOrd α] in
@[simp] theorem sum_empty (weight : β → M) : sum weight (∅ : OrdMap α β) = 0 := by
  have none : (∅ : OrdMap α β).toList = [] := ExtTreeMap.toList_eq_nil_iff.mpr rfl
  rw [sum, none]
  rfl

theorem sum_insert [DecidableEq α] (weight : β → M) (map : OrdMap α β) {key : α} (value : β)
    (absent : map[key]? = none) :
    sum weight (map.insert key value) = weight value + sum weight map := by
  have perm := (toList_insert_perm map value absent).map fun entry => weight entry.2
  simpa [sum] using perm.sum_eq

theorem sum_split [DecidableEq α] (weight : β → M) (map : OrdMap α β) {key : α} {old : β}
    (found : map[key]? = some old) :
    ∃ rest, sum weight map = weight old + rest ∧
      ∀ new, sum weight (map.insert key new) = weight new + rest := by
  have absent : (map.erase key)[key]? = none := by
    rw [lookup_erase, if_pos rfl]
  have moved : ∀ new, (map.erase key).insert key new = map.insert key new := by
    intro new
    refine ExtTreeMap.ext_getElem? fun key' => ?_
    rw [lookup_insert, lookup_insert, lookup_erase]
    split_ifs
    · rfl
    · rfl
  refine ⟨sum weight (map.erase key), ?_, fun new => ?_⟩
  · rw [← sum_insert weight _ old absent, insert_erase map found]
  · rw [← sum_insert weight _ new absent, moved]

omit [LawfulEqOrd α] in
theorem sum_add (first second : β → M) (map : OrdMap α β) :
    sum (fun value => first value + second value) map = sum first map + sum second map :=
  List.sum_map_add

theorem sum_le_sum {first second : β → Nat} (map : OrdMap α β)
    (below : ∀ (key : α) (value : β), map[key]? = some value → first value ≤ second value) :
    sum first map ≤ sum second map := by
  apply List.sum_le_sum
  rintro ⟨key, value⟩ member
  exact below key value (ExtTreeMap.mem_toList_iff_getElem?_eq_some.mp member)

omit [LawfulEqOrd α] in
theorem map_sum {N : Type} [AddCommMonoid N] (f : M →+ N) (weight : β → M) (map : OrdMap α β) :
    f (sum weight map) = sum (fun value => f (weight value)) map := by
  rw [sum, sum, map_list_sum, List.map_map]
  rfl

end OrdMap
