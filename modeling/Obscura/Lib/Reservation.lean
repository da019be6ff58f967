import Obscura.Lib.OrdMap

/-! # Reservations

Entries of a store reserve keys, and an index maps every reserved key to the id of the
entry that holds it. The index is right when it lists exactly the keys of the entries
(`Reservation.Inverts`); dropping an entry with its keys and adding an entry whose keys
are free keep it so, and no key is held twice.
-/

namespace Reservation

open Std

section Index

variable {ι κ : Type} [DecidableEq ι] [Ord κ] [TransOrd κ] [LawfulEqOrd κ] [DecidableEq κ]

/-- Drop the keys that `id` still holds. -/
def release (owner : OrdMap κ ι) (id : ι) (keys : List κ) : OrdMap κ ι :=
  keys.foldl (fun owner key => if owner[key]? = some id then owner.erase key else owner) owner

/-- Give the keys to `id`. -/
def reserve (owner : OrdMap κ ι) (id : ι) (keys : List κ) : OrdMap κ ι :=
  keys.foldl (fun owner key => owner.insert key id) owner

/-- Who owns a key after a release. -/
theorem lookup_release (owner : OrdMap κ ι) (id : ι) (keys : List κ) (key : κ) :
    (release owner id keys)[key]? =
      if key ∈ keys ∧ owner[key]? = some id then none else owner[key]? := by
  induction keys generalizing owner with
  | nil => simp [release]
  | cons first keys ih =>
    change (release (if owner[first]? = some id then owner.erase first else owner) id keys)[key]?
      = _
    rw [ih]
    by_cases held : owner[first]? = some id
    · rw [if_pos held, OrdMap.lookup_erase]
      by_cases same : first = key
      · subst same
        simp [held]
      · simp [same, Ne.symm same]
    · rw [if_neg held]
      by_cases same : key = first
      · subst same
        simp [held]
      · simp [same]

omit [DecidableEq ι] in
theorem lookup_reserve (owner : OrdMap κ ι) (id : ι) (keys : List κ) (key : κ) :
    (reserve owner id keys)[key]? = if key ∈ keys then some id else owner[key]? := by
  induction keys generalizing owner with
  | nil => simp [reserve]
  | cons first keys ih =>
    change (reserve (owner.insert first id) id keys)[key]? = _
    rw [ih, OrdMap.lookup_insert]
    by_cases later : key ∈ keys
    · simp [later]
    · by_cases same : first = key
      · simp [same]
      · simp [same, Ne.symm same, later]

end Index

section Store

variable {ι κ β : Type} [Ord ι] [TransOrd ι] [Ord κ] [TransOrd κ]

/-- The index maps exactly the keys of every entry to the entry's id. -/
def Inverts (keysOf : β → List κ) (entries : OrdMap ι β) (owner : OrdMap κ ι) : Prop :=
  ∀ key id, owner[key]? = some id ↔ ∃ entry, entries[id]? = some entry ∧ key ∈ keysOf entry

namespace Inverts

variable {keysOf : β → List κ} {entries : OrdMap ι β} {owner : OrdMap κ ι}

theorem empty : Inverts keysOf (∅ : OrdMap ι β) (∅ : OrdMap κ ι) := by
  intro key id
  simp

theorem apart (inverts : Inverts keysOf entries owner) {id id' : ι} {entry entry' : β} {key : κ}
    (found : entries[id]? = some entry) (found' : entries[id']? = some entry')
    (held : key ∈ keysOf entry) (held' : key ∈ keysOf entry') : id = id' := by
  have first := (inverts key id).mpr ⟨entry, found, held⟩
  have second := (inverts key id').mpr ⟨entry', found', held'⟩
  exact Option.some.inj (first.symm.trans second)

variable [LawfulEqOrd ι] [DecidableEq ι] [LawfulEqOrd κ] [DecidableEq κ]

/-- An entry leaves with its keys. -/
theorem release (inverts : Inverts keysOf entries owner) {id : ι} {entry : β}
    (found : entries[id]? = some entry) :
    Inverts keysOf (entries.erase id) (Reservation.release owner id (keysOf entry)) := by
  intro key other
  rw [lookup_release, OrdMap.lookup_erase]
  by_cases same : id = other
  · subst same
    have none : ¬ ((if key ∈ keysOf entry ∧ owner[key]? = some id then none else owner[key]?) =
        some id) := by
      split_ifs with gone
      · exact not_false
      · intro held
        obtain ⟨entry', found', listed⟩ := (inverts key id).mp held
        obtain rfl := Option.some.inj (found.symm.trans found')
        exact gone ⟨listed, held⟩
    simpa using none
  · rw [if_neg same, ← inverts key other]
    split_ifs with gone
    · rw [gone.2]
      simp [same]
    · rfl

/-- An entry comes with free keys. -/
theorem reserve (inverts : Inverts keysOf entries owner) {id : ι} {entry : β}
    (absent : entries[id]? = none) (free : ∀ key ∈ keysOf entry, owner[key]? = none) :
    Inverts keysOf (entries.insert id entry) (Reservation.reserve owner id (keysOf entry)) := by
  intro key other
  rw [lookup_reserve, OrdMap.lookup_insert]
  by_cases same : id = other
  · subst same
    by_cases listed : key ∈ keysOf entry
    · simp [listed]
    · have unheld : owner[key]? ≠ some id := by
        intro held
        obtain ⟨entry', found, _⟩ := (inverts key id).mp held
        rw [absent] at found
        exact absurd found (Option.some_ne_none entry').symm
      simp [listed, unheld]
  · rw [if_neg same]
    by_cases listed : key ∈ keysOf entry
    · have unheld : ¬ ∃ entry', entries[other]? = some entry' ∧ key ∈ keysOf entry' := by
        rw [← inverts key other, free key listed]
        simp
      simp only [listed, ↓reduceIte, Option.some.injEq, same, false_iff]
      exact unheld
    · rw [if_neg listed]
      exact inverts key other

end Inverts

end Store

end Reservation
