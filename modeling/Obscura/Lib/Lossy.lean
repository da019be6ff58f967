import Mathlib.Data.List.Basic

/-! # Calls over a lossy transport

A client of a service whose requests and responses may be lost. A request that
arrives is handled: it is refused, which changes nothing, or it changes the state of
the service and has effects, each of which is recorded together with whether the
response to its request was delivered. A call makes a bounded number of attempts and
cannot tell a lost request from a lost response.

When a request has one effect each time it is handled, a call that returns has had
one answered effect and one more for every lost response, and a call that fails only
the latter (`Runs.call`).
-/

namespace Lossy

/-- What the transport does with an attempt. -/
inductive Fate
  | requestLost
  | responseLost
  | delivered
deriving DecidableEq, Repr

variable {σ ρ α ε β γ : Type}

/-- A service: the answer to a request with the new state and the effects, or a
refusal. -/
structure Service (σ ρ α ε : Type) where
  handle : σ → ρ → Except String (α × σ × List ε)

/-- The service's state, the number of attempts so far, and the effects so far with
whether their response was delivered. -/
structure World (σ ε : Type) where
  state : σ
  clock : Nat := 0
  trace : List (ε × Bool) := []

/-- A program that makes calls and may give up. -/
structure Client (σ ε β : Type) where
  run : World σ ε → Except String β × World σ ε

namespace Client

instance : Monad (Client σ ε) where
  pure value := ⟨fun w => (.ok value, w)⟩
  bind first next := ⟨fun w =>
    match first.run w with
    | (.ok value, w') => (next value).run w'
    | (.error text, w') => (.error text, w')⟩

/-- Give up. -/
def fail (text : String) : Client σ ε β := ⟨fun w => (.error text, w)⟩

/-- Return the value or give up with the error. -/
def ofExcept (result : Except String β) : Client σ ε β := ⟨fun w => (result, w)⟩

/-- Go on with the result of a program, whether it gave up or not. -/
def outcome (program : Client σ ε β) : Client σ ε (Except String β) :=
  ⟨fun w => (.ok (program.run w).1, (program.run w).2)⟩

/-- Give up with a longer text when a program gives up. -/
def within (context : String) (program : Client σ ε β) : Client σ ε β :=
  ⟨fun w => ((program.run w).1.mapError (context ++ ·), (program.run w).2)⟩

end Client

section Calls

variable (service : Service σ ρ α ε) (fates : Nat → Fate)

/-- The world after a request was handled. -/
def World.handled (w : World σ ε) (delivered : Bool) :
    Except String (α × σ × List ε) → World σ ε
  | .error _ => { w with clock := w.clock + 1 }
  | .ok (_, state, effects) =>
    { state, clock := w.clock + 1, trace := w.trace ++ effects.map (·, delivered) }

/-- Up to `attempts` attempts; a refusal is an answer and ends the call. -/
def call (refused : String → String) (lost : String) :
    (attempts : Nat) → ρ → Client σ ε α
  | 0, _ => .fail lost
  | attempts + 1, request => ⟨fun w =>
    match fates w.clock with
    | .requestLost => (call refused lost attempts request).run { w with clock := w.clock + 1 }
    | .responseLost =>
      (call refused lost attempts request).run (w.handled false (service.handle w.state request))
    | .delivered =>
      match service.handle w.state request with
      | .error text => (.error (refused text), { w with clock := w.clock + 1 })
      | .ok (answer, state, effects) =>
        (.ok answer, w.handled true (.ok (answer, state, effects)))⟩

end Calls

/-- The trace after a call whose request has these effects each time it is handled. -/
def Repeated (effects : List ε) (before : List (ε × Bool)) (result : Except String β)
    (after : List (ε × Bool)) : Prop :=
  ∃ count, after = before ++ (List.replicate count (effects.map (·, false))).flatten ++
    match result with
    | .ok _ => effects.map (·, true)
    | .error _ => []

theorem Repeated.of_nil {before after : List (ε × Bool)} {result : Except String β}
    (repeated : Repeated [] before result after) : after = before := by
  obtain ⟨count, trace⟩ := repeated
  cases result with
  | ok value => simpa using trace
  | error text => simpa using trace

/-! ## Rules -/

/-- The result and the final world of a program meet a postcondition. -/
structure Runs (program : Client σ ε β) (w : World σ ε)
    (post : Except String β → World σ ε → Prop) : Prop where
  met : post (program.run w).1 (program.run w).2

namespace Runs

variable {w : World σ ε} {post : Except String β → World σ ε → Prop}

theorem pure {value : β} (met : post (.ok value) w) :
    Runs (Pure.pure value : Client σ ε β) w post :=
  ⟨met⟩

theorem fail {text : String} (met : post (.error text) w) : Runs (.fail text) w post :=
  ⟨met⟩

theorem ofExcept {result : Except String β} (met : post result w) :
    Runs (.ofExcept result) w post :=
  ⟨met⟩

theorem bind {first : Client σ ε γ} {next : γ → Client σ ε β}
    (runs : Runs first w fun result w' =>
      match result with
      | .ok value => Runs (next value) w' post
      | .error text => post (.error text) w') :
    Runs (first >>= next) w post := by
  obtain ⟨runs⟩ := runs
  constructor
  simp only [Bind.bind]
  rcases outcome : first.run w with ⟨result, w'⟩
  rw [outcome] at runs
  cases result with
  | ok value => exact runs.met
  | error text => exact runs

theorem outcome {program : Client σ ε γ} {post : Except String (Except String γ) → World σ ε → Prop}
    (runs : Runs program w fun result w' => post (.ok result) w') : Runs program.outcome w post :=
  ⟨runs.met⟩

theorem within {context : String} {program : Client σ ε β}
    (runs : Runs program w fun result w' => post (result.mapError (context ++ ·)) w') :
    Runs (program.within context) w post :=
  ⟨runs.met⟩

theorem mono {program : Client σ ε β} {stronger : Except String β → World σ ε → Prop}
    (runs : Runs program w stronger) (weaker : ∀ result w', stronger result w' → post result w') :
    Runs program w post :=
  ⟨weaker _ _ runs.met⟩

theorem scheduled {program : World σ ε → Client σ ε β} (runs : Runs (program w) w post) :
    Runs ⟨fun w => (program w).run w⟩ w post :=
  ⟨runs.met⟩

/-- A request with the same effects whenever it is handled in a state of the invariant: it has
them once for every lost response, and a last time when the call returns. -/
theorem call {service : Service σ ρ α ε} {fates : Nat → Fate} {refused : String → String}
    {lost : String} {request : ρ} (invariant : σ → Prop) (answered : α → σ → Prop)
    (effects : List ε)
    (handled : ∀ state answer next performed, invariant state →
      service.handle state request = .ok (answer, next, performed) →
        invariant next ∧ answered answer next ∧ performed = effects)
    (attempts : Nat) {w : World σ ε} (started : invariant w.state) :
    Runs (Lossy.call service fates refused lost attempts request) w fun result w' =>
      invariant w'.state ∧ (∀ answer, result = .ok answer → answered answer w'.state) ∧
        Repeated effects w.trace result w'.trace := by
  induction attempts generalizing w with
  | zero => exact .fail ⟨started, nofun, 0, by simp⟩
  | succ attempts ih =>
    constructor
    rw [Lossy.call]
    simp only
    cases fates w.clock with
    | requestLost => exact (ih (w := { w with clock := w.clock + 1 }) started).met
    | responseLost =>
      cases outcome : service.handle w.state request with
      | error text => exact (ih (w := { w with clock := w.clock + 1 }) started).met
      | ok handledAs =>
        obtain ⟨answer, next, performed⟩ := handledAs
        obtain ⟨kept, -, rfl⟩ := handled _ _ _ _ started outcome
        obtain ⟨finished, known, count, trace⟩ := (ih
          (w := w.handled false (.ok (answer, next, performed) :
            Except String (α × σ × List ε))) kept).met
        refine ⟨finished, known, count + 1, ?_⟩
        simp only [World.handled] at trace ⊢
        rw [trace, List.replicate_succ, List.flatten_cons]
        simp only [List.append_assoc]
    | delivered =>
      cases outcome : service.handle w.state request with
      | error text => exact ⟨started, nofun, 0, by simp⟩
      | ok handledAs =>
        obtain ⟨answer, next, performed⟩ := handledAs
        obtain ⟨kept, known, rfl⟩ := handled _ _ _ _ started outcome
        refine ⟨kept, fun answer' same => ?_, 0, by simp [World.handled]⟩
        cases same
        exact known

/-- What every handling of a request keeps, a call keeps, whatever the effects. -/
theorem call_keeps {service : Service σ ρ α ε} {fates : Nat → Fate} {refused : String → String}
    {lost : String} {request : ρ} (invariant : σ → Prop) (answered : α → σ → Prop)
    (handled : ∀ state answer next performed, invariant state →
      service.handle state request = .ok (answer, next, performed) →
        invariant next ∧ answered answer next)
    (attempts : Nat) {w : World σ ε} (started : invariant w.state) :
    Runs (Lossy.call service fates refused lost attempts request) w fun result w' =>
      invariant w'.state ∧ ∀ answer, result = .ok answer → answered answer w'.state := by
  induction attempts generalizing w with
  | zero => exact .fail ⟨started, nofun⟩
  | succ attempts ih =>
    constructor
    rw [Lossy.call]
    simp only
    cases fates w.clock with
    | requestLost => exact (ih (w := { w with clock := w.clock + 1 }) started).met
    | responseLost =>
      cases outcome : service.handle w.state request with
      | error text => exact (ih (w := { w with clock := w.clock + 1 }) started).met
      | ok handledAs =>
        obtain ⟨answer, next, performed⟩ := handledAs
        exact (ih (w := w.handled false (.ok (answer, next, performed) :
          Except String (α × σ × List ε))) (handled _ _ _ _ started outcome).1).met
    | delivered =>
      cases outcome : service.handle w.state request with
      | error text => exact ⟨started, nofun⟩
      | ok handledAs =>
        obtain ⟨answer, next, performed⟩ := handledAs
        obtain ⟨kept, known⟩ := handled _ _ _ _ started outcome
        refine ⟨kept, fun answer' same => ?_⟩
        cases same
        exact known

/-- A call that is delivered at once. -/
theorem call_delivered {service : Service σ ρ α ε} {refused : String → String} {lost : String}
    {request : ρ} {attempts : Nat} (tries : attempts ≠ 0) {w : World σ ε}
    {post : Except String α → World σ ε → Prop}
    (answered : ∀ answer next performed,
      service.handle w.state request = .ok (answer, next, performed) →
        post (.ok answer) (w.handled true (.ok (answer, next, performed))))
    (rejected : ∀ text, service.handle w.state request = .error text →
      post (.error (refused text)) { w with clock := w.clock + 1 }) :
    Runs (Lossy.call service (fun _ => .delivered) refused lost attempts request) w post := by
  obtain ⟨more, rfl⟩ := Nat.exists_eq_succ_of_ne_zero tries
  constructor
  rw [Lossy.call]
  simp only
  cases outcome : service.handle w.state request with
  | error text => exact rejected text outcome
  | ok handledAs =>
    obtain ⟨answer, next, performed⟩ := handledAs
    exact answered answer next performed outcome

end Runs

end Lossy
