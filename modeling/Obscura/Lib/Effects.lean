import Mathlib.Data.List.Basic

/-! # Drivers that act on a changing world

A driver is a program that performs effects one after the other and may give up
with an error. Each effect takes one tick of a clock, and what the world answers
may depend on the tick in any way, so an adversarial world is a function of time.

The rules are those of a crash logic. A driver `Meets` a specification when, from
every state satisfying the precondition, an invariant holds after each of its
effects (so at every point where it may be stopped), the postcondition holds if it
returns, and the failure condition holds if it gives up. States are ghost states
advanced by a step function on effects.
-/

/-- A program that performs effects and returns a value or gives up. -/
structure Driver (ω α : Type) where
  run : Nat → List ω × Except String α

namespace Driver

variable {ω α β σ : Type}

instance : Monad (Driver ω) where
  pure value := ⟨fun _ => ([], .ok value)⟩
  bind first next := ⟨fun time =>
    match first.run time with
    | (effects, .error text) => (effects, .error text)
    | (effects, .ok value) =>
      let rest := (next value).run (time + effects.length)
      (effects ++ rest.1, rest.2)⟩

/-- Perform an effect. -/
def perform (effect : ω) : Driver ω Unit := ⟨fun _ => ([effect], .ok ())⟩

/-- Perform an effect that depends on the tick and take the world's answer at
that tick. -/
def ask (effect : Nat → ω) (answer : Nat → α) : Driver ω α :=
  ⟨fun time => ([effect time], .ok (answer time))⟩

/-- Give up. -/
def fail (text : String) : Driver ω α := ⟨fun _ => ([], .error text)⟩

/-- Return the value or give up with the error. -/
def ofExcept (result : Except String α) : Driver ω α :=
  match result with
  | .ok value => pure value
  | .error text => fail text

/-- The effects of a driver started at a tick. -/
def effects (driver : Driver ω α) (time : Nat) : List ω := (driver.run time).1

/-- The result of a driver started at a tick. -/
def result (driver : Driver ω α) (time : Nat) : Except String α := (driver.run time).2

/-! ## Traces -/

@[simp] theorem effects_pure (value : α) (time : Nat) :
    (Pure.pure value : Driver ω α).effects time = [] :=
  rfl

@[simp] theorem effects_fail (text : String) (time : Nat) :
    (Driver.fail text : Driver ω α).effects time = [] :=
  rfl

@[simp] theorem effects_ask_bind (effect : Nat → ω) (answer : Nat → α) (next : α → Driver ω β)
    (time : Nat) :
    (ask effect answer >>= next).effects time =
      effect time :: (next (answer time)).effects (time + 1) :=
  rfl

theorem effects_bind_ok {first : Driver ω α} {next : α → Driver ω β} {time : Nat}
    {performed : List ω} {value : α} (returns : first.run time = (performed, .ok value)) :
    (first >>= next).effects time = performed ++ (next value).effects (time + performed.length) := by
  simp [Driver.effects, Bind.bind, returns]

theorem effects_bind_prefix (first : Driver ω α) (next : α → Driver ω β) (time : Nat) :
    first.effects time <+: (first >>= next).effects time := by
  cases outcome : first.run time with
  | mk performed answer =>
  have firstEffects : first.effects time = performed := congrArg Prod.fst outcome
  rw [firstEffects]
  cases answer with
  | error text => simp [Driver.effects, Bind.bind, outcome]
  | ok value =>
    rw [effects_bind_ok outcome]
    exact List.prefix_append _ _

/-! ## Specifications -/

/-- An assertion about the clock and the ghost state. -/
abbrev Assertion (σ : Type) := Nat → σ → Prop

/-- From the precondition, the invariant holds at every point, the postcondition
at a return and the failure condition when the driver gives up. -/
def Meets (step : σ → ω → σ) (invariant pre : Assertion σ) (driver : Driver ω α)
    (post : α → Assertion σ) (failed : Assertion σ) : Prop :=
  ∀ time state, pre time state →
    (∀ count ≤ (driver.effects time).length,
      invariant (time + count) (((driver.effects time).take count).foldl step state)) ∧
    match driver.result time with
    | .ok value =>
      post value (time + (driver.effects time).length) ((driver.effects time).foldl step state)
    | .error _ => failed (time + (driver.effects time).length)
        ((driver.effects time).foldl step state)

variable {step : σ → ω → σ} {invariant pre failed : Assertion σ} {post : α → Assertion σ}

theorem Meets.pure {value : α}
    (holds : ∀ time state, pre time state → invariant time state ∧ post value time state) :
    Meets step invariant pre (Pure.pure value : Driver ω α) post failed := by
  intro time state start
  obtain ⟨kept, done⟩ := holds time state start
  refine ⟨fun count bound => ?_, done⟩
  obtain rfl : count = 0 := Nat.le_zero.mp bound
  exact kept

/-- A program that fails. -/
theorem Meets.fail {text : String}
    (holds : ∀ time state, pre time state → invariant time state ∧ failed time state) :
    Meets step invariant pre (Driver.fail text : Driver ω α) post failed := by
  intro time state start
  obtain ⟨kept, done⟩ := holds time state start
  refine ⟨fun count bound => ?_, done⟩
  obtain rfl : count = 0 := Nat.le_zero.mp bound
  exact kept

/-- A program of one effect. -/
theorem Meets.ask {effect : Nat → ω} {answer : Nat → α}
    (holds : ∀ time state, pre time state → invariant time state ∧
      invariant (time + 1) (step state (effect time)) ∧
      post (answer time) (time + 1) (step state (effect time))) :
    Meets step invariant pre (Driver.ask effect answer) post failed := by
  intro time state start
  obtain ⟨before, after, done⟩ := holds time state start
  refine ⟨fun count bound => ?_, done⟩
  rcases Nat.le_one_iff_eq_zero_or_eq_one.mp bound with rfl | rfl
  · exact before
  · exact after

theorem Meets.perform {effect : ω} {post : Unit → Assertion σ}
    (holds : ∀ time state, pre time state → invariant time state ∧
      invariant (time + 1) (step state effect) ∧ post () (time + 1) (step state effect)) :
    Meets step invariant pre (Driver.perform effect) post failed :=
  @Meets.ask ω Unit σ step invariant pre failed post (fun _ => effect) (fun _ => ()) holds

/-- A program, then the program that its result chooses. -/
theorem Meets.bind {first : Driver ω α} {next : α → Driver ω β} {middle : α → Assertion σ}
    {post : β → Assertion σ} (start : Meets step invariant pre first middle failed)
    (rest : ∀ value, Meets step invariant (middle value) (next value) post failed) :
    Meets step invariant pre (first >>= next) post failed := by
  intro time state begins
  obtain ⟨kept, done⟩ := start time state begins
  cases outcome : first.run time with
  | mk performed answer =>
  have firstEffects : first.effects time = performed := congrArg Prod.fst outcome
  have firstResult : first.result time = answer := congrArg Prod.snd outcome
  rw [firstEffects] at kept done
  rw [firstResult] at done
  cases answer with
  | error text =>
    have same : (first >>= next).run time = (performed, .error text) := by
      simp [Bind.bind, outcome]
    rw [Driver.effects, Driver.result, same]
    exact ⟨kept, done⟩
  | ok value =>
    obtain ⟨later, last⟩ := rest value (time + performed.length) _ done
    have same : (first >>= next).run time =
        (performed ++ (next value).effects (time + performed.length),
          (next value).result (time + performed.length)) := by
      simp [Bind.bind, outcome, Driver.effects, Driver.result]
    rw [Driver.effects, Driver.result, same]
    dsimp only
    refine ⟨fun count bound => ?_, ?_⟩
    · rcases Nat.le_total count performed.length with early | late
      · rw [List.take_append_of_le_length early]
        exact kept count early
      · obtain ⟨extra, rfl⟩ := Nat.exists_eq_add_of_le late
        rw [List.take_length_add_append, List.foldl_append, ← Nat.add_assoc]
        apply later extra
        rw [List.length_append] at bound
        omega
    · rw [List.length_append, List.foldl_append, ← Nat.add_assoc]
      exact last

theorem Meets.mono {driver : Driver ω α} {pre' failed' : Assertion σ} {post' : α → Assertion σ}
    (meets : Meets step invariant pre driver post failed)
    (before : ∀ time state, pre' time state → pre time state)
    (after : ∀ value time state, post value time state → post' value time state)
    (otherwise : ∀ time state, failed time state → failed' time state) :
    Meets step invariant pre' driver post' failed' := by
  intro time state start
  obtain ⟨kept, done⟩ := meets time state (before time state start)
  refine ⟨kept, ?_⟩
  cases outcome : driver.result time with
  | error text =>
    rw [outcome] at done
    exact otherwise _ _ done
  | ok value =>
    rw [outcome] at done
    exact after _ _ _ done

theorem Meets.assume {driver : Driver ω α} {fact : Prop}
    (meets : fact → Meets step invariant pre driver post failed) :
    Meets step invariant (fun time state => fact ∧ pre time state) driver post failed :=
  fun time state start => meets start.1 time state start.2

theorem Meets.exists {ι : Sort*} {driver : Driver ω α} {pre : ι → Assertion σ}
    (meets : ∀ index, Meets step invariant (pre index) driver post failed) :
    Meets step invariant (fun time state => ∃ index, pre index time state) driver post failed :=
  fun time state start => start.elim fun index holds => meets index time state holds

/-! ## Specifications up to an event -/

section Unless

variable {event : σ → Prop} (stays : ∀ state effect, event state → event (step state effect))

include stays

theorem foldl_stays (effects : List ω) {state : σ} (happened : event state) :
    event (effects.foldl step state) := by
  induction effects generalizing state with
  | nil => exact happened
  | cons effect effects ih => exact ih (stays state effect happened)

theorem Meets.unless {driver : Driver ω α}
    (meets : Meets step (fun _ _ => True) pre driver
      (fun value time state => event state ∨ post value time state)
      (fun time state => event state ∨ failed time state)) :
    Meets step (fun _ _ => True) (fun time state => event state ∨ pre time state) driver
      (fun value time state => event state ∨ post value time state)
      (fun time state => event state ∨ failed time state) := by
  intro time state start
  rcases start with happened | start
  · refine ⟨fun _ _ => trivial, ?_⟩
    have after := foldl_stays stays (driver.effects time) happened
    cases driver.result time with
    | error text => exact Or.inl after
    | ok value => exact Or.inl after
  · exact meets time state start

/-- Sequencing up to the event. -/
theorem Meets.bind_unless {first : Driver ω α} {next : α → Driver ω β}
    {middle : α → Assertion σ} {post : β → Assertion σ}
    (start : Meets step (fun _ _ => True) pre first
      (fun value time state => event state ∨ middle value time state)
      (fun time state => event state ∨ failed time state))
    (rest : ∀ value, Meets step (fun _ _ => True) (middle value) (next value)
      (fun value time state => event state ∨ post value time state)
      (fun time state => event state ∨ failed time state)) :
    Meets step (fun _ _ => True) pre (first >>= next)
      (fun value time state => event state ∨ post value time state)
      (fun time state => event state ∨ failed time state) :=
  start.bind fun value => (rest value).unless stays

end Unless

/-! ## Drivers that leave the ghost state alone -/

/-- Whatever the ghost state satisfies, it satisfies at every point of the driver,
and the values returned satisfy `returns`. -/
def Leaves (step : σ → ω → σ) (driver : Driver ω α) (returns : α → Prop) : Prop :=
  ∀ holds : σ → Prop, Meets step (fun _ => holds) (fun _ => holds) driver
    (fun value _ state => returns value ∧ holds state) (fun _ => holds)

namespace Leaves

variable {returns : α → Prop}

theorem pure {value : α} (returned : returns value) :
    Leaves step (Pure.pure value : Driver ω α) returns :=
  fun _ => Meets.pure fun _ _ start => ⟨start, returned, start⟩

theorem fail {text : String} : Leaves step (Driver.fail text : Driver ω α) returns :=
  fun _ => Meets.fail fun _ _ start => ⟨start, start⟩

theorem ofExcept {result : Except String α} (returned : ∀ value, result = .ok value → returns value) :
    Leaves step (Driver.ofExcept result : Driver ω α) returns := by
  cases result with
  | error text => exact fail
  | ok value => exact pure (returned value rfl)

theorem ask {effect : Nat → ω} {answer : Nat → α}
    (unchanged : ∀ time state, step state (effect time) = state)
    (returned : ∀ time, returns (answer time)) :
    Leaves step (Driver.ask effect answer) returns := by
  intro holds
  refine Meets.ask fun time state start => ?_
  rw [unchanged]
  exact ⟨start, start, returned time, start⟩

theorem bind {first : Driver ω α} {next : α → Driver ω β} {last : β → Prop}
    (start : Leaves step first returns)
    (rest : ∀ value, returns value → Leaves step (next value) last) :
    Leaves step (first >>= next) last :=
  fun holds => (start holds).bind fun value => Meets.assume fun returned => rest value returned holds

theorem mono {driver : Driver ω α} {weaker : α → Prop} (leaves : Leaves step driver returns)
    (implies : ∀ value, returns value → weaker value) : Leaves step driver weaker :=
  fun holds => (leaves holds).mono (fun _ _ start => start)
    (fun value _ _ done => ⟨implies value done.1, done.2⟩) (fun _ _ done => done)

theorem meets {driver : Driver ω α} {holds kept : σ → Prop} (leaves : Leaves step driver returns)
    (implies : ∀ state, holds state → kept state) :
    Meets step (fun _ => kept) (fun _ => holds) driver
      (fun value _ state => returns value ∧ holds state) (fun _ => kept) := by
  intro time state start
  obtain ⟨through, done⟩ := leaves holds time state start
  refine ⟨fun count bound => implies _ (through count bound), ?_⟩
  cases outcome : driver.result time with
  | error text =>
    rw [outcome] at done
    exact implies _ done
  | ok value =>
    rw [outcome] at done
    exact done

end Leaves

end Driver
