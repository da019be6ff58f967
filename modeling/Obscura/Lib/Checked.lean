import Mathlib.Algebra.GroupWithZero.Nat
import Mathlib.Data.List.Nodup
import Mathlib.Data.List.Perm.Basic

/-! # Checked computations

A validator is a sequence of rejections in an exception monad, with loops that
thread an accumulator. This module holds the inversion rules of such programs:
a successful sequence passed every check (`Checked.reject_bind_ok`,
`Checked.bind_ok`), a successful loop keeps every invariant of its body
(`Checked.foldlM_invariant`), and a loop whose body refuses a key it has already
seen has processed pairwise distinct keys (`Checked.foldlM_fresh`).
-/

namespace Checked

variable {ε α β σ κ : Type}

/-- Stop with `error` when `bad` holds. -/
def reject (bad : Prop) [Decidable bad] (error : ε) : Except ε Unit :=
  if bad then .error error else .ok ()

@[simp] theorem reject_ok {bad : Prop} [Decidable bad] {error : ε} {result : Unit} :
    reject bad error = .ok result ↔ ¬ bad := by
  by_cases holds : bad <;> simp [reject, holds]

/-- Demand a value, stopping with `error` when there is none. -/
def orReject (value : Option α) (error : ε) : Except ε α :=
  match value with
  | some found => .ok found
  | none => .error error

@[simp] theorem orReject_ok {value : Option α} {error : ε} {result : α} :
    orReject value error = .ok result ↔ value = some result := by
  cases value <;> simp [orReject]

@[simp] theorem bind_ok {program : Except ε α} {next : α → Except ε β} {result : β} :
    (program >>= next) = .ok result ↔ ∃ value, program = .ok value ∧ next value = .ok result := by
  cases program <;> simp [bind, Except.bind]

@[simp] theorem reject_bind_ok {bad : Prop} [Decidable bad] {error : ε}
    {next : Unit → Except ε β} {result : β} :
    (reject bad error >>= next) = .ok result ↔ ¬ bad ∧ next () = .ok result := by
  by_cases holds : bad <;> simp [reject, holds, bind, Except.bind]

@[simp] theorem pure_ok {value result : α} :
    (pure value : Except ε α) = .ok result ↔ value = result := by
  simp [pure, Except.pure]

theorem isOk_iff {program : Except ε α} :
    program.isOk = true ↔ ∃ value, program = .ok value := by
  cases program <;> simp [Except.isOk, Except.toBool]

/-- Leave a check out. -/
def skipping (skip : Bool) (check : Except ε Unit) : Except ε Unit :=
  if skip then .ok () else check

@[simp] theorem skipping_ok {skip : Bool} {check : Except ε Unit} {result : Unit} :
    skipping skip check = .ok result ↔ (skip = false → check = .ok result) := by
  cases skip <;> simp [skipping]

@[simp] theorem mapError_ok {ε' : Type} {program : Except ε α} {wrap : ε → ε'} {result : α} :
    program.mapError wrap = .ok result ↔ program = .ok result := by
  cases program <;> simp [Except.mapError]

theorem foldlM_agree {first second : σ → α → Except ε σ} {values : List α}
    (agree : ∀ state, ∀ value ∈ values, first state value = second state value) (start : σ) :
    values.foldlM first start = values.foldlM second start := by
  induction values generalizing start with
  | nil => rfl
  | cons value values ih =>
    rw [List.foldlM_cons, List.foldlM_cons, agree start value (by simp)]
    refine bind_congr fun next => ih (fun state other member => ?_) next
    exact agree state other (List.mem_cons_of_mem _ member)

theorem foldlM_invariant {body : σ → α → Except ε σ} (invariant : σ → Prop)
    (step : ∀ state value next, invariant state → body state value = .ok next → invariant next) :
    ∀ {values : List α} {start final : σ}, values.foldlM body start = .ok final →
      invariant start → invariant final := by
  intro values
  induction values with
  | nil =>
    intro start final run holds
    simp only [List.foldlM_nil, pure_ok] at run
    exact run ▸ holds
  | cons value values ih =>
    intro start final run holds
    simp only [List.foldlM_cons, bind_ok] at run
    obtain ⟨middle, first, rest⟩ := run
    exact ih rest (step start value middle holds first)

theorem foldlM_forall {body : σ → α → Except ε σ} (property : α → Prop)
    (step : ∀ state value next, body state value = .ok next → property value) :
    ∀ {values : List α} {start final : σ}, values.foldlM body start = .ok final →
      ∀ value ∈ values, property value := by
  intro values
  induction values with
  | nil =>
    intro start final _ value member
    exact absurd member List.not_mem_nil
  | cons head tail ih =>
    intro start final run value member
    simp only [List.foldlM_cons, bind_ok] at run
    obtain ⟨middle, first, rest⟩ := run
    rcases List.mem_cons.mp member with rfl | member
    · exact step start value middle first
    · exact ih rest value member

theorem foldlM_sum {body : σ → α → Except ε σ} (measure : σ → Nat) (amount : α → Nat)
    (step : ∀ state value next, body state value = .ok next →
      measure next = measure state + amount value) :
    ∀ {values : List α} {start final : σ}, values.foldlM body start = .ok final →
      measure final = measure start + (values.map amount).sum := by
  intro values
  induction values with
  | nil =>
    intro start final run
    simp only [List.foldlM_nil, pure_ok] at run
    simp [run]
  | cons value values ih =>
    intro start final run
    simp only [List.foldlM_cons, bind_ok] at run
    obtain ⟨middle, first, rest⟩ := run
    rw [ih rest, step start value middle first]
    simp only [List.map_cons, List.sum_cons]
    omega

/-- `keys` are distinct and new with respect to `seen`, and `next` has recorded
them and kept what was seen. -/
structure Fresh (seen keys next : List κ) : Prop where
  distinct : keys.Nodup
  unseen : ∀ key ∈ keys, key ∉ seen
  recorded : ∀ key ∈ keys, key ∈ next
  kept : seen ⊆ next

namespace Fresh

theorem nil {seen next : List κ} (kept : seen ⊆ next) : Fresh seen [] next where
  distinct := List.nodup_nil
  unseen := by simp
  recorded := by simp
  kept := kept

theorem one {seen next : List κ} {key : κ} (unseen : key ∉ seen) (recorded : key ∈ next)
    (kept : seen ⊆ next) : Fresh seen [key] next where
  distinct := List.nodup_singleton key
  unseen := by simpa using unseen
  recorded := by simpa using recorded
  kept := kept

theorem two {seen next : List κ} {first second : κ} (unseen : first ∉ seen ∧ second ∉ seen)
    (different : first ≠ second) (recorded : first ∈ next ∧ second ∈ next)
    (kept : seen ⊆ next) : Fresh seen [first, second] next where
  distinct := by simp [different]
  unseen := by simp [unseen]
  recorded := by simp [recorded]
  kept := kept

theorem append {seen middle final first second : List κ} (one : Fresh seen first middle)
    (two : Fresh middle second final) : Fresh seen (first ++ second) final where
  distinct := by
    refine List.nodup_append.mpr ⟨one.distinct, two.distinct, ?_⟩
    rintro key member _ later rfl
    exact two.unseen key later (one.recorded key member)
  unseen := by
    intro key member earlier
    rcases List.mem_append.mp member with member | member
    · exact one.unseen key member earlier
    · exact two.unseen key member (one.kept earlier)
  recorded := by
    intro key member
    rcases List.mem_append.mp member with member | member
    · exact two.kept (one.recorded key member)
    · exact two.recorded key member
  kept := fun _ earlier => two.kept (one.kept earlier)

theorem weaken {seen middle final keys : List κ} (fresh : Fresh seen keys middle)
    (kept : middle ⊆ final) : Fresh seen keys final where
  distinct := fresh.distinct
  unseen := fresh.unseen
  recorded := fun key member => kept (fresh.recorded key member)
  kept := fun _ earlier => kept (fresh.kept earlier)

end Fresh

theorem foldlM_records {body : σ → α → Except ε σ} (seen : σ → List κ) (keys : α → List κ)
    (step : ∀ state value next, body state value = .ok next →
      ∀ key, key ∈ seen next ↔ key ∈ seen state ∨ key ∈ keys value) :
    ∀ {values : List α} {start final : σ}, values.foldlM body start = .ok final →
      ∀ key, key ∈ seen final ↔ key ∈ seen start ∨ key ∈ values.flatMap keys := by
  intro values
  induction values with
  | nil =>
    intro start final run key
    simp only [List.foldlM_nil, pure_ok] at run
    simp [run]
  | cons value values ih =>
    intro start final run key
    rw [List.foldlM_cons, bind_ok] at run
    obtain ⟨middle, first, rest⟩ := run
    rw [List.flatMap_cons, List.mem_append, ih rest, step start value middle first, or_assoc]

/-- **Fresh keys.** When the body refuses every element one of whose keys was
seen, and records the keys of the element it accepts, the keys of all accepted
elements are pairwise distinct and were unseen at the start. -/
theorem foldlM_fresh {body : σ → α → Except ε σ} (seen : σ → List κ) (keys : α → List κ)
    (step : ∀ state value next, body state value = .ok next →
      Fresh (seen state) (keys value) (seen next)) :
    ∀ {values : List α} {start final : σ}, values.foldlM body start = .ok final →
      Fresh (seen start) (values.flatMap keys) (seen final) := by
  intro values
  induction values with
  | nil =>
    intro start final run
    simp only [List.foldlM_nil, pure_ok] at run
    subst run
    exact Fresh.nil (List.Subset.refl _)
  | cons value values ih =>
    intro start final run
    simp only [List.foldlM_cons, bind_ok] at run
    obtain ⟨middle, first, rest⟩ := run
    rw [List.flatMap_cons]
    exact (step start value middle first).append (ih rest)

theorem forM_ok {check : α → Except ε Unit} {values : List α} :
    values.forM check = .ok () ↔ ∀ value ∈ values, check value = .ok () := by
  induction values with
  | nil => simp
  | cons value values ih =>
    change (check value >>= fun _ => values.forM check) = .ok () ↔ _
    simp only [bind_ok, ih, List.forall_mem_cons, exists_and_right]
    constructor
    · rintro ⟨⟨_, first⟩, rest⟩
      exact ⟨first, rest⟩
    · rintro ⟨first, rest⟩
      exact ⟨⟨(), first⟩, rest⟩

/-! ## Partial functions on lists -/

theorem foldlM_checked {body : σ → α → Except ε σ} {passes : α → Prop} {update : σ → α → σ}
    (step : ∀ state value next, body state value = .ok next ↔
      passes value ∧ update state value = next) {values : List α} {state final : σ} :
    values.foldlM body state = .ok final ↔
      (∀ value ∈ values, passes value) ∧ values.foldl update state = final := by
  induction values generalizing state with
  | nil =>
    simp only [List.foldlM_nil, pure_ok, List.not_mem_nil, false_implies, implies_true,
      List.foldl_nil, true_and]
  | cons value values ih =>
    simp only [List.foldlM_cons, bind_ok, step, ih, List.forall_mem_cons, List.foldl_cons]
    constructor
    · rintro ⟨_, ⟨here, rfl⟩, rest, same⟩
      exact ⟨⟨here, rest⟩, same⟩
    · rintro ⟨⟨here, rest⟩, same⟩
      exact ⟨_, ⟨here, rfl⟩, rest, same⟩

theorem mem_mapM {f : α → Option β} {values : List α} {results : List β}
    (run : values.mapM f = some results) {result : β} (member : result ∈ results) :
    ∃ value ∈ values, f value = some result := by
  induction values generalizing results with
  | nil =>
    obtain rfl : [] = results := by simpa using run
    exact absurd member List.not_mem_nil
  | cons value values ih =>
    simp only [List.mapM_cons, Option.bind_eq_bind, Option.bind_eq_some_iff, Option.pure_def,
      Option.some.injEq] at run
    obtain ⟨first, found, rest, restRun, rfl⟩ := run
    rcases List.mem_cons.mp member with rfl | later
    · exact ⟨value, by simp, found⟩
    · obtain ⟨source, sourceMember, same⟩ := ih restRun later
      exact ⟨source, List.mem_cons_of_mem _ sourceMember, same⟩

theorem mapM_found {f : α → Option β} {values : List α} {results : List β}
    (run : values.mapM f = some results) {value : α} (member : value ∈ values) :
    ∃ result, f value = some result := by
  induction values generalizing results with
  | nil => exact absurd member List.not_mem_nil
  | cons first values ih =>
    simp only [List.mapM_cons, Option.bind_eq_bind, Option.bind_eq_some_iff] at run
    obtain ⟨result, found, rest, restRun, _⟩ := run
    rcases List.mem_cons.mp member with rfl | later
    · exact ⟨result, found⟩
    · exact ih restRun later

theorem mapM_eq_map {f : α → Option β} {g : α → β} {values : List α}
    (found : ∀ value ∈ values, f value = some (g value)) :
    values.mapM f = some (values.map g) := by
  induction values with
  | nil => rfl
  | cons value values ih =>
    rw [List.mapM_cons, found value List.mem_cons_self,
      ih fun other member => found other (List.mem_cons_of_mem _ member)]
    rfl

theorem map_filterMap {γ : Type} {f : α → Option β} {g : β → γ} {h : α → γ} {values : List α}
    (total : ∀ value ∈ values, ∃ result, f value = some result ∧ g result = h value) :
    (values.filterMap f).map g = values.map h := by
  induction values with
  | nil => rfl
  | cons value values ih =>
    obtain ⟨result, found, same⟩ := total value (by simp)
    rw [List.filterMap_cons, found, List.map_cons, List.map_cons, same,
      ih fun other member => total other (List.mem_cons_of_mem _ member)]

/-- Run a loop in place: on an error, keep the state reached. -/
def runUntil (body : σ → α → Except ε σ) : σ → List α → Option ε × σ
  | state, [] => (none, state)
  | state, value :: values =>
    match body state value with
    | .ok next => runUntil body next values
    | .error error => (some error, state)

theorem runUntil_none {body : σ → α → Except ε σ} {values : List α} {start final : σ} :
    runUntil body start values = (none, final) ↔ values.foldlM body start = .ok final := by
  induction values generalizing start with
  | nil => simp [runUntil]
  | cons value values ih =>
    rw [runUntil, List.foldlM_cons, bind_ok]
    cases outcome : body start value with
    | ok next => simp [ih]
    | error error => simp

/-- Run a loop in place whose steps change the state even when they fail. -/
def stepUntil (body : σ → α → Option ε × σ) : σ → List α → Option ε × σ
  | state, [] => (none, state)
  | state, value :: values =>
    match body state value with
    | (some error, next) => (some error, next)
    | (none, next) => stepUntil body next values

theorem stepUntil_invariant {body : σ → α → Option ε × σ} (invariant : σ → Prop)
    {values : List α}
    (step : ∀ state, ∀ value ∈ values, invariant state → invariant (body state value).2)
    {start : σ} (holds : invariant start) : invariant (stepUntil body start values).2 := by
  induction values generalizing start with
  | nil => exact holds
  | cons value values ih =>
    have next := step start value List.mem_cons_self holds
    unfold stepUntil
    split
    · rename_i error state outcome
      rwa [outcome] at next
    · rename_i state outcome
      rw [outcome] at next
      exact ih (fun state other member => step state other (List.mem_cons_of_mem _ member)) next

end Checked
