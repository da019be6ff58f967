import Obscura.Lib.OrdMap

/-! # Registries of one-shot contracts

A registry maps keys to live contracts. A contract is opened under a key, stays
live, and is closed at most once; after that its key may be opened again for
another contract. Contracts are told apart by an identity that is never used
twice. `Registry.Sound` is the invariant of such a registry: no live contract has
been closed, and no identity is closed twice.
-/

namespace Registry

open Std

variable {κ β ι : Type} [Ord κ] [TransOrd κ] [LawfulEqOrd κ]

/-- The identities of the contracts that are live under `keys`. -/
def identities (ident : κ → β → ι) (live : OrdMap κ β) (keys : List κ) : List ι :=
  keys.filterMap fun key => live[key]?.map (ident key)

/-- Live entries have used identities, each its own, and no closed one. -/
structure Sound (ident : κ → β → ι) (used : ι → Prop) (live : OrdMap κ β) (closed : List ι) :
    Prop where
  liveUsed : ∀ key entry, live[key]? = some entry → used (ident key entry)
  liveOpen : ∀ key entry, live[key]? = some entry → ident key entry ∉ closed
  liveApart : ∀ key entry key' entry', live[key]? = some entry → live[key']? = some entry' →
    ident key entry = ident key' entry' → key = key'
  closedUsed : ∀ id ∈ closed, used id
  closedOnce : closed.Nodup

namespace Sound

variable {ident : κ → β → ι} {used : ι → Prop} {live : OrdMap κ β} {closed : List ι}

omit [LawfulEqOrd κ] in
theorem empty : Sound ident used (∅ : OrdMap κ β) [] where
  liveUsed := by simp
  liveOpen := by simp
  liveApart := by simp
  closedUsed := by simp
  closedOnce := List.nodup_nil

omit [LawfulEqOrd κ] in
theorem mem_identities {keys : List κ} {id : ι} :
    id ∈ identities ident live keys ↔
      ∃ key ∈ keys, ∃ entry, live[key]? = some entry ∧ ident key entry = id := by
  simp [identities, List.mem_filterMap]

omit [LawfulEqOrd κ] in
/-- Different keys have different identities. -/
theorem identities_nodup (sound : Sound ident used live closed) {keys : List κ}
    (distinct : keys.Nodup) : (identities ident live keys).Nodup := by
  induction keys with
  | nil => exact List.nodup_nil
  | cons key keys ih =>
    rw [List.nodup_cons] at distinct
    cases found : live[key]? with
    | none => simpa [identities, found] using ih distinct.2
    | some entry =>
      have split : identities ident live (key :: keys) =
          ident key entry :: identities ident live keys := by
        simp [identities, found]
      rw [split]
      refine List.nodup_cons.mpr ⟨?_, ih distinct.2⟩
      intro again
      obtain ⟨key', member, entry', found', same⟩ := mem_identities.mp again
      have keysEq := sound.liveApart key' entry' key entry found' found same
      exact distinct.1 (keysEq ▸ member)

/-- Closing distinct contracts keeps the registry sound. -/
theorem close [DecidableEq κ] (sound : Sound ident used live closed) {keys : List κ}
    (distinct : keys.Nodup) :
    Sound ident used (OrdMap.eraseAll live keys) (identities ident live keys ++ closed) := by
  have still : ∀ key entry, (OrdMap.eraseAll live keys)[key]? = some entry →
      key ∉ keys ∧ live[key]? = some entry := by
    intro key entry found
    rw [OrdMap.lookup_eraseAll] at found
    by_cases removed : key ∈ keys
    · simp [removed] at found
    · exact ⟨removed, by simpa [removed] using found⟩
  constructor
  case liveUsed =>
    intro key entry found
    exact sound.liveUsed key entry (still key entry found).2
  case liveOpen =>
    intro key entry found
    obtain ⟨kept, found⟩ := still key entry found
    rw [List.mem_append, not_or]
    refine ⟨?_, sound.liveOpen key entry found⟩
    intro closing
    obtain ⟨key', member, entry', found', same⟩ := mem_identities.mp closing
    have keysEq := sound.liveApart key' entry' key entry found' found same
    exact kept (keysEq ▸ member)
  case liveApart =>
    intro key entry key' entry' found found' same
    exact sound.liveApart key entry key' entry' (still key entry found).2
      (still key' entry' found').2 same
  case closedUsed =>
    intro id member
    rcases List.mem_append.mp member with closing | before
    · obtain ⟨key, _, entry, found, rfl⟩ := mem_identities.mp closing
      exact sound.liveUsed key entry found
    · exact sound.closedUsed id before
  case closedOnce =>
    refine List.nodup_append.mpr ⟨sound.identities_nodup distinct, sound.closedOnce, ?_⟩
    rintro id closing _ before rfl
    obtain ⟨key, _, entry, found, rfl⟩ := mem_identities.mp closing
    exact sound.liveOpen key entry found before

/-- Opening contracts with new, distinct identities keeps the registry sound. -/
theorem openAll [DecidableEq κ] (sound : Sound ident used live closed) {used' : ι → Prop}
    {entries : List (κ × β)} (keys : (entries.map Prod.fst).Nodup)
    (unused : ∀ entry ∈ entries, ¬ used (ident entry.1 entry.2))
    (apart : (entries.map fun entry => ident entry.1 entry.2).Nodup)
    (marked : ∀ entry ∈ entries, used' (ident entry.1 entry.2))
    (kept : ∀ id, used id → used' id) :
    Sound ident used' (OrdMap.insertAll live entries) closed := by
  constructor
  case liveUsed =>
    intro key entry found
    rcases OrdMap.lookup_insertAll live keys found with fresh | ⟨_, old⟩
    · exact marked (key, entry) fresh
    · exact kept _ (sound.liveUsed key entry old)
  case liveOpen =>
    intro key entry found closing
    rcases OrdMap.lookup_insertAll live keys found with fresh | ⟨_, old⟩
    · exact unused (key, entry) fresh (sound.closedUsed _ closing)
    · exact sound.liveOpen key entry old closing
  case liveApart =>
    intro key entry key' entry' found found' same
    rcases OrdMap.lookup_insertAll live keys found with fresh | ⟨_, old⟩
    · rcases OrdMap.lookup_insertAll live keys found' with fresh' | ⟨_, old'⟩
      · have entriesEq := List.inj_on_of_nodup_map apart fresh fresh' same
        exact congrArg Prod.fst entriesEq
      · have usedBefore := sound.liveUsed key' entry' old'
        exact absurd (same ▸ usedBefore) (unused (key, entry) fresh)
    · rcases OrdMap.lookup_insertAll live keys found' with fresh' | ⟨_, old'⟩
      · have usedBefore := sound.liveUsed key entry old
        exact absurd (same ▸ usedBefore) (unused (key', entry') fresh')
      · exact sound.liveApart key entry key' entry' old old' same
  case closedUsed =>
    intro id member
    exact kept id (sound.closedUsed id member)
  case closedOnce => exact sound.closedOnce

end Sound

end Registry
