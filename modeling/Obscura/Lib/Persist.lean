import Obscura.Lib.Checked

/-! # Checks that are run again

A check that passed is run again, on a later state or behind other checks. `Checked.Mirrors`
says when the second run passes, exactly under a condition, and how its result relates to
the first. `Checked.Persists` is the case of equal results. The rules follow the shape of a
validator, so that the condition of a whole validation is the conjunction of the
conditions of its parts.
-/

namespace Checked

variable {ε α α' β β' σ σ' : Type}

/-- When `old` succeeded, `new` succeeds exactly under the condition, with a related
result. -/
def Mirrors (related : α → α' → Prop) (old : Except ε α) (new : Except ε α') (condition : Prop) :
    Prop :=
  ∀ result, old = .ok result →
    (condition → ∃ other, new = .ok other) ∧
      ∀ other, new = .ok other → condition ∧ related result other

namespace Mirrors

variable {related : α → α' → Prop} {old : Except ε α} {new : Except ε α'} {condition : Prop}

theorem congr {other : Prop} (mirrors : Mirrors related old new condition)
    (same : other ↔ condition) : Mirrors related old new other := by
  intro result passed
  obtain ⟨again, necessary⟩ := mirrors result passed
  exact ⟨fun holds => again (same.mp holds),
    fun next ran => (necessary next ran).imp_left same.mpr⟩

theorem passes (mirrors : Mirrors related old new condition) {result : α}
    (passed : old = .ok result) : (∃ other, new = .ok other) ↔ condition := by
  obtain ⟨again, necessary⟩ := mirrors result passed
  exact ⟨fun ⟨other, ran⟩ => (necessary other ran).1, again⟩

theorem bind {next : α → Except ε β} {next' : α' → Except ε β'} {relatedNext : β → β' → Prop}
    {later : Prop} (first : Mirrors related old new condition)
    (rest : ∀ value value', related value value' →
      Mirrors relatedNext (next value) (next' value') later) :
    Mirrors relatedNext (old >>= next) (new >>= next') (condition ∧ later) := by
  intro result passed
  obtain ⟨value, ran, continued⟩ := bind_ok.mp passed
  obtain ⟨again, necessary⟩ := first value ran
  constructor
  · rintro ⟨now, after⟩
    obtain ⟨value', ran'⟩ := again now
    obtain ⟨other, ranLater⟩ :=
      (rest value value' (necessary value' ran').2 result continued).1 after
    exact ⟨other, bind_ok.mpr ⟨value', ran', ranLater⟩⟩
  · intro other ranAgain
    obtain ⟨value', ran', continued'⟩ := bind_ok.mp ranAgain
    obtain ⟨now, same⟩ := necessary value' ran'
    obtain ⟨after, sameNext⟩ := (rest value value' same result continued).2 other continued'
    exact ⟨⟨now, after⟩, sameNext⟩

theorem pure {value : α} {value' : α'} (same : related value value') :
    Mirrors related (Pure.pure value : Except ε α) (Pure.pure value' : Except ε α') True := by
  intro result passed
  obtain rfl := Except.ok.inj passed
  refine ⟨fun _ => ⟨_, rfl⟩, fun other again => ?_⟩
  obtain rfl := Except.ok.inj again
  exact ⟨trivial, same⟩

theorem of_eq {program program' : Except ε α} (same : program = program') :
    Mirrors Eq program program' True := by
  intro result passed
  rw [← same]
  exact ⟨fun _ => ⟨_, passed⟩, fun _ again => ⟨trivial, Except.ok.inj (passed.symm.trans again)⟩⟩

/-- A loop passes when every round does. -/
theorem foldlM {related : σ → σ' → Prop} {body : σ → α → Except ε σ} {body' : σ' → α → Except ε σ'}
    {condition : α → Prop} {items : List α}
    (step : ∀ state state', related state state' → ∀ item ∈ items,
      Mirrors related (body state item) (body' state' item) (condition item))
    {start : σ} {start' : σ'} (same : related start start') :
    Mirrors related (items.foldlM body start) (items.foldlM body' start')
      (∀ item ∈ items, condition item) := by
  induction items generalizing start start' with
  | nil =>
    intro result passed
    obtain rfl := Except.ok.inj passed
    refine ⟨fun _ => ⟨start', rfl⟩, fun other ran => ⟨by simp, ?_⟩⟩
    obtain rfl := Except.ok.inj ran
    exact same
  | cons item items ih =>
    rw [List.foldlM_cons, List.foldlM_cons]
    refine (bind (step start start' same item List.mem_cons_self) fun state state' same =>
      ih (fun state state' same item member =>
        step state state' same item (List.mem_cons_of_mem _ member)) same).congr ?_
    rw [List.forall_mem_cons]

end Mirrors

/-- When `old` succeeded, `new` succeeds exactly under the condition, with the same
result. -/
def Persists (old new : Except ε α) (condition : Prop) : Prop :=
  Mirrors Eq old new condition

namespace Persists

variable {old new : Except ε α} {condition : Prop}

theorem of_passed (again : ∀ result, old = .ok result →
    (condition → new = .ok result) ∧ ∀ other, new = .ok other → condition) :
    Persists old new condition := by
  intro result passed
  obtain ⟨enough, necessary⟩ := again result passed
  refine ⟨fun holds => ⟨result, enough holds⟩, fun other ran => ?_⟩
  have holds := necessary other ran
  exact ⟨holds, Except.ok.inj ((enough holds).symm.trans ran)⟩

theorem refl (program : Except ε α) : Persists program program True :=
  Mirrors.of_eq rfl

theorem congr {other : Prop} (persists : Persists old new condition)
    (same : other ↔ condition) : Persists old new other :=
  Mirrors.congr persists same

theorem passes (persists : Persists old new condition) {result : α} (passed : old = .ok result) :
    (∃ other, new = .ok other) ↔ condition :=
  Mirrors.passes persists passed

theorem bind {next next' : α → Except ε β} {later : Prop} (first : Persists old new condition)
    (rest : ∀ value, Persists (next value) (next' value) later) :
    Persists (old >>= next) (new >>= next') (condition ∧ later) :=
  Mirrors.bind first fun value value' same => by
    rw [← same]
    exact rest value

theorem foldlM {body body' : σ → α → Except ε σ} {condition : α → Prop} {items : List α}
    (step : ∀ state, ∀ item ∈ items,
      Persists (body state item) (body' state item) (condition item)) (start : σ) :
    Persists (items.foldlM body start) (items.foldlM body' start)
      (∀ item ∈ items, condition item) :=
  Mirrors.foldlM (fun state state' same item member => by
    rw [← same]
    exact step state item member) rfl

end Persists

end Checked
