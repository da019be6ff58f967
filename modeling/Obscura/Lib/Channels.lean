import Mathlib.Data.List.Perm.Basic
import Mathlib.Data.List.GetD

/-! # Buffered channels

A growing family of bounded first-in first-out channels with calls in flight: a sender holds a
channel and a message before its send is attempted, a receiver holds a channel before it takes
one, and either attempt may come at any later time. `Exact` is what every run keeps: a channel
hands out what it accepted, in order and once, and a message that was sent is in flight,
refused or accepted, each exactly once (`run_exact`).
-/

namespace Channels

/-- `κ` labels the callers. -/
structure State (κ μ : Type) where
  queues : List (List μ) := []
  sending : List (Nat × κ × μ) := []
  receiving : List (Nat × κ) := []

/-- The events of a message. -/
inductive Kind where
  | sent
  | accepted
  | refused
  | received
deriving DecidableEq

/-- An event with its channel, caller and message. -/
structure Event (κ μ : Type) where
  kind : Kind
  channel : Nat
  caller : κ
  message : μ

/-- `push`, `pop` and `cancel` name a call in flight by its place. -/
inductive Op (κ μ : Type) where
  | make
  | send (channel : Nat) (caller : κ) (message : μ)
  | push (place : Nat)
  | await (channel : Nat) (caller : κ)
  | pop (place : Nat)
  | cancel (place : Nat)
  | idle

variable {κ μ : Type}

namespace State

/-- The messages that wait in a channel. -/
def queue (s : State κ μ) (channel : Nat) : List μ := s.queues.getD channel []

/-- A send that does not wait: a full channel refuses the message. -/
def push (cap : Nat) (s : State κ μ) (place : Nat) : State κ μ × Option (Event κ μ) :=
  match s.sending[place]? with
  | none => (s, none)
  | some (channel, caller, message) =>
    if (s.queue channel).length < cap then
      ({ s with
          queues := s.queues.set channel (s.queue channel ++ [message])
          sending := s.sending.eraseIdx place }, some ⟨.accepted, channel, caller, message⟩)
    else
      ({ s with sending := s.sending.eraseIdx place },
        some ⟨.refused, channel, caller, message⟩)

/-- A receiver waits while its channel is empty. -/
def pop (s : State κ μ) (place : Nat) : State κ μ × Option (Event κ μ) :=
  match s.receiving[place]? with
  | none => (s, none)
  | some (channel, caller) =>
    match s.queue channel with
    | [] => (s, none)
    | message :: queue =>
      ({ s with
          queues := s.queues.set channel queue
          receiving := s.receiving.eraseIdx place },
        some ⟨.received, channel, caller, message⟩)

/-- A call on a channel that was never made is no step. -/
def step (cap : Nat) (s : State κ μ) : Op κ μ → State κ μ × Option (Event κ μ)
  | .make => ({ s with queues := s.queues ++ [[]] }, none)
  | .send channel caller message =>
    if channel < s.queues.length then
      ({ s with sending := s.sending ++ [(channel, caller, message)] },
        some ⟨.sent, channel, caller, message⟩)
    else
      (s, none)
  | .push place => s.push cap place
  | .await channel caller =>
    if channel < s.queues.length then
      ({ s with receiving := s.receiving ++ [(channel, caller)] }, none)
    else
      (s, none)
  | .pop place => s.pop place
  | .cancel place => ({ s with receiving := s.receiving.eraseIdx place }, none)
  | .idle => (s, none)

end State

/-- The messages of one kind of event on a channel, in order. -/
def history (kind : Kind) (channel : Nat) (events : List (Event κ μ)) : List μ :=
  (events.filter fun e => e.kind = kind ∧ e.channel = channel).map Event.message

/-- The messages of the senders in flight on a channel. -/
def pending (channel : Nat) (sending : List (Nat × κ × μ)) : List μ :=
  (sending.filter fun call => call.1 = channel).map fun call => call.2.2

/-- What holds after any run: of `events`, the channels and the calls in flight. -/
structure Exact (cap : Nat) (s : State κ μ) (events : List (Event κ μ)) : Prop where
  bounded : ∀ channel, (s.queue channel).length ≤ cap
  ordered : ∀ channel,
    history .accepted channel events = history .received channel events ++ s.queue channel
  settled : ∀ channel, (history .sent channel events).Perm
    (history .accepted channel events ++ history .refused channel events ++
      pending channel s.sending)
  sendingMade : ∀ call ∈ s.sending, call.1 < s.queues.length
  receivingMade : ∀ call ∈ s.receiving, call.1 < s.queues.length
  eventsMade : ∀ e ∈ events, e.channel < s.queues.length

/-! ## One step -/

theorem history_append (kind : Kind) (channel : Nat) (events : List (Event κ μ)) (e : Event κ μ) :
    history kind channel (events ++ [e]) =
      history kind channel events ++
        if e.kind = kind ∧ e.channel = channel then [e.message] else [] := by
  unfold history
  rw [List.filter_append, List.map_append]
  split_ifs with own <;> simp [own]

theorem pending_append (channel : Nat) (sending : List (Nat × κ × μ)) (call : Nat × κ × μ) :
    pending channel (sending ++ [call]) =
      pending channel sending ++ if call.1 = channel then [call.2.2] else [] := by
  unfold pending
  rw [List.filter_append, List.map_append]
  split_ifs with own <;> simp [own]

theorem pending_perm {sending : List (Nat × κ × μ)} {place channel : Nat} {call : Nat × κ × μ}
    (found : sending[place]? = some call) :
    (pending channel sending).Perm
      ((if call.1 = channel then [call.2.2] else []) ++
        pending channel (sending.eraseIdx place)) := by
  obtain ⟨inside, rfl⟩ := List.getElem?_eq_some_iff.mp found
  have perm := List.getElem_cons_eraseIdx_perm inside
  have mapped := ((perm.filter fun call => decide (call.1 = channel)).map fun call => call.2.2).symm
  unfold pending
  refine mapped.trans ?_
  split_ifs with own <;> simp [own]

theorem queue_set {s : State κ μ} {channel : Nat} (inside : channel < s.queues.length)
    (queue : List μ) (other : Nat) :
    (s.queues.set channel queue).getD other [] =
      if channel = other then queue else s.queue other := by
  unfold State.queue
  rw [List.getD_eq_getElem?_getD, List.getD_eq_getElem?_getD, List.getElem?_set]
  split_ifs <;> simp

/-- Only `make` adds a channel. -/
theorem length_step (cap : Nat) (s : State κ μ) (op : Op κ μ) (kept : op ≠ .make) :
    (s.step cap op).1.queues.length = s.queues.length := by
  cases op with
  | make => exact absurd rfl kept
  | idle => rfl
  | send channel caller message =>
    dsimp only [State.step]
    split_ifs <;> rfl
  | await channel caller =>
    dsimp only [State.step]
    split_ifs <;> rfl
  | cancel place => rfl
  | push place =>
    dsimp only [State.step, State.push]
    cases s.sending[place]? with
    | none => rfl
    | some call =>
      dsimp only
      split_ifs <;> simp
  | pop place =>
    dsimp only [State.step, State.pop]
    cases s.receiving[place]? with
    | none => rfl
    | some call =>
      dsimp only
      cases s.queue call.1 <;> simp

namespace Exact

variable {cap : Nat} {s : State κ μ} {events : List (Event κ μ)}

theorem start : Exact cap ({} : State κ μ) [] where
  bounded := by simp [State.queue]
  ordered := by simp [history, State.queue]
  settled := by simp [history, pending]
  sendingMade := by simp
  receivingMade := by simp
  eventsMade := by simp

/-- A new channel. -/
theorem make (exact : Exact cap s events) :
    Exact cap { s with queues := s.queues ++ [[]] } events := by
  have same : ∀ channel, State.queue { s with queues := s.queues ++ [[]] } channel =
      s.queue channel := by
    intro channel
    unfold State.queue
    rw [List.getD_eq_getElem?_getD, List.getD_eq_getElem?_getD, List.getElem?_append]
    split_ifs with inside
    · rfl
    · rw [List.getElem?_eq_none (Nat.not_lt.mp inside)]
      cases channel - s.queues.length <;> rfl
  have longer : s.queues.length ≤ (s.queues ++ [[]]).length := by simp
  exact {
    bounded := fun channel => (same channel).symm ▸ exact.bounded channel
    ordered := fun channel => (same channel).symm ▸ exact.ordered channel
    settled := exact.settled
    sendingMade := fun call inside => Nat.lt_of_lt_of_le (exact.sendingMade call inside) longer
    receivingMade := fun call inside => Nat.lt_of_lt_of_le (exact.receivingMade call inside) longer
    eventsMade := fun e inside => Nat.lt_of_lt_of_le (exact.eventsMade e inside) longer }

/-- A call that waits to send. -/
theorem send (exact : Exact cap s events) {channel : Nat} (inside : channel < s.queues.length)
    (caller : κ) (message : μ) :
    Exact cap { s with sending := s.sending ++ [(channel, caller, message)] }
      (events ++ [⟨.sent, channel, caller, message⟩]) where
  bounded := exact.bounded
  ordered other := by
    simp only [history_append, reduceCtorEq, false_and, if_false, List.append_nil]
    exact exact.ordered other
  settled other := by
    simp only [history_append, pending_append, reduceCtorEq, false_and, true_and, if_false,
      List.append_nil]
    rw [← List.append_assoc]
    exact (exact.settled other).append_right _
  sendingMade := List.forall_mem_append.mpr ⟨exact.sendingMade, by simpa using inside⟩
  receivingMade := exact.receivingMade
  eventsMade := List.forall_mem_append.mpr ⟨exact.eventsMade, by simpa using inside⟩

/-- A message goes into its queue. -/
theorem accept (exact : Exact cap s events) {place channel : Nat} {caller : κ} {message : μ}
    (found : s.sending[place]? = some (channel, caller, message))
    (room : (s.queue channel).length < cap) :
    Exact cap
      { s with
        queues := s.queues.set channel (s.queue channel ++ [message])
        sending := s.sending.eraseIdx place }
      (events ++ [⟨.accepted, channel, caller, message⟩]) := by
  have inside : channel < s.queues.length :=
    exact.sendingMade _ (List.mem_of_getElem? found)
  constructor
  case bounded =>
    intro other
    rw [State.queue, queue_set inside]
    split_ifs with own
    · rw [List.length_append, List.length_singleton]
      exact room
    · exact exact.bounded other
  case ordered =>
    intro other
    rw [State.queue, queue_set inside]
    simp only [history_append, reduceCtorEq, false_and, true_and, if_false, List.append_nil]
    rw [exact.ordered other]
    by_cases own : channel = other
    · subst own
      rw [if_pos rfl, if_pos rfl, List.append_assoc]
    · rw [if_neg own, if_neg own, List.append_nil]
  case settled =>
    intro other
    simp only [history_append, reduceCtorEq, false_and, true_and, if_false, List.append_nil]
    refine (exact.settled other).trans ?_
    refine ((pending_perm found).append_left _).trans ?_
    simp only [List.append_assoc]
    refine List.Perm.append_left _ ?_
    rw [← List.append_assoc, ← List.append_assoc]
    exact List.perm_append_comm.append_right _
  case sendingMade =>
    rw [List.length_set]
    exact fun call member => exact.sendingMade call (List.mem_of_mem_eraseIdx member)
  case receivingMade =>
    rw [List.length_set]
    exact exact.receivingMade
  case eventsMade =>
    rw [List.length_set]
    exact List.forall_mem_append.mpr ⟨exact.eventsMade, by simpa using inside⟩

/-- A send gives up. -/
theorem refuse (exact : Exact cap s events) {place channel : Nat} {caller : κ} {message : μ}
    (found : s.sending[place]? = some (channel, caller, message)) :
    Exact cap { s with sending := s.sending.eraseIdx place }
      (events ++ [⟨.refused, channel, caller, message⟩]) where
  bounded := exact.bounded
  ordered other := by
    simp only [history_append, reduceCtorEq, false_and, if_false, List.append_nil]
    exact exact.ordered other
  settled other := by
    simp only [history_append, reduceCtorEq, false_and, true_and, if_false, List.append_nil]
    refine (exact.settled other).trans ?_
    refine ((pending_perm found).append_left _).trans ?_
    simp only [List.append_assoc]
    exact List.Perm.refl _
  sendingMade call member := exact.sendingMade call (List.mem_of_mem_eraseIdx member)
  receivingMade := exact.receivingMade
  eventsMade := List.forall_mem_append.mpr
    ⟨exact.eventsMade, by simpa using exact.sendingMade _ (List.mem_of_getElem? found)⟩

/-- A message leaves its queue. -/
theorem receive (exact : Exact cap s events) {place channel : Nat} {caller : κ} {message : μ}
    {queue : List μ} (found : s.receiving[place]? = some (channel, caller))
    (head : s.queue channel = message :: queue) :
    Exact cap
      { s with
        queues := s.queues.set channel queue
        receiving := s.receiving.eraseIdx place }
      (events ++ [⟨.received, channel, caller, message⟩]) := by
  have inside : channel < s.queues.length :=
    exact.receivingMade _ (List.mem_of_getElem? found)
  constructor
  case bounded =>
    intro other
    rw [State.queue, queue_set inside]
    split_ifs with own
    · have bound := exact.bounded channel
      rw [head, List.length_cons] at bound
      exact Nat.le_of_succ_le bound
    · exact exact.bounded other
  case ordered =>
    intro other
    rw [State.queue, queue_set inside]
    simp only [history_append, reduceCtorEq, false_and, true_and, if_false, List.append_nil]
    rw [exact.ordered other]
    by_cases own : channel = other
    · subst own
      rw [if_pos rfl, if_pos rfl, head, List.append_assoc, List.singleton_append]
    · rw [if_neg own, if_neg own, List.append_nil]
  case settled =>
    intro other
    simp only [history_append, reduceCtorEq, false_and, if_false, List.append_nil]
    exact exact.settled other
  case sendingMade =>
    rw [List.length_set]
    exact exact.sendingMade
  case receivingMade =>
    rw [List.length_set]
    exact fun call member => exact.receivingMade call (List.mem_of_mem_eraseIdx member)
  case eventsMade =>
    rw [List.length_set]
    exact List.forall_mem_append.mpr ⟨exact.eventsMade, by simpa using inside⟩

/-- Every operation keeps the channels exact. -/
theorem step (exact : Exact cap s events) (op : Op κ μ) :
    Exact cap (s.step cap op).1 (events ++ (s.step cap op).2.toList) := by
  cases op with
  | make => exact (List.append_nil events).symm ▸ exact.make
  | idle => exact (List.append_nil events).symm ▸ exact
  | send channel caller message =>
    dsimp only [State.step]
    split_ifs with inside
    · exact exact.send inside caller message
    · exact (List.append_nil events).symm ▸ exact
  | await channel caller =>
    dsimp only [State.step]
    split_ifs with inside
    · rw [Option.toList_none, List.append_nil]
      exact { exact with
        receivingMade := List.forall_mem_append.mpr ⟨exact.receivingMade, by simpa using inside⟩ }
    · exact (List.append_nil events).symm ▸ exact
  | cancel place =>
    refine (List.append_nil events).symm ▸ { exact with
      receivingMade := fun call member =>
        exact.receivingMade call (List.mem_of_mem_eraseIdx member) }
  | push place =>
    dsimp only [State.step, State.push]
    cases found : s.sending[place]? with
    | none => exact (List.append_nil events).symm ▸ exact
    | some call =>
      obtain ⟨channel, caller, message⟩ := call
      dsimp only
      split_ifs with room
      · exact exact.accept found room
      · exact exact.refuse found
  | pop place =>
    dsimp only [State.step, State.pop]
    cases found : s.receiving[place]? with
    | none => exact (List.append_nil events).symm ▸ exact
    | some call =>
      obtain ⟨channel, caller⟩ := call
      dsimp only
      cases head : s.queue channel with
      | nil => exact (List.append_nil events).symm ▸ exact
      | cons message queue => exact exact.receive found head

end Exact

/-- When all the callers of a channel carry its label, so do the events. -/
structure Labelled (label : Nat → Option κ) (s : State κ μ) (events : List (Event κ μ)) : Prop where
  sending : ∀ call ∈ s.sending, label call.1 = some call.2.1
  receiving : ∀ call ∈ s.receiving, label call.1 = some call.2
  events : ∀ e ∈ events, label e.channel = some e.caller

/-- The caller of an operation, on the channel that it names. -/
def Op.caller? : Op κ μ → Option (Nat × κ)
  | .send channel caller _ => some (channel, caller)
  | .await channel caller => some (channel, caller)
  | _ => none

/-- An operation keeps the labels of the calls. -/
theorem Labelled.step {label : Nat → Option κ} {cap : Nat} {s : State κ μ}
    {events : List (Event κ μ)} (labelled : Labelled label s events) (op : Op κ μ)
    (own : ∀ call, op.caller? = some call → label call.1 = some call.2) :
    Labelled label (s.step cap op).1 (events ++ (s.step cap op).2.toList) := by
  have unmoved : Labelled label s (events ++ []) := (List.append_nil events).symm ▸ labelled
  cases op with
  | make => exact { unmoved with }
  | idle => exact unmoved
  | send channel caller message =>
    have called := own (channel, caller) rfl
    dsimp only [State.step]
    split_ifs with inside
    · exact {
        sending := List.forall_mem_append.mpr ⟨labelled.sending, by simpa using called⟩
        receiving := labelled.receiving
        events := List.forall_mem_append.mpr ⟨labelled.events, by simpa using called⟩ }
    · exact unmoved
  | await channel caller =>
    have called := own (channel, caller) rfl
    dsimp only [State.step]
    split_ifs with inside
    · exact { unmoved with
        receiving := List.forall_mem_append.mpr ⟨labelled.receiving, by simpa using called⟩ }
    · exact unmoved
  | cancel place =>
    exact { unmoved with
      receiving := fun call member =>
        labelled.receiving call (List.mem_of_mem_eraseIdx member) }
  | push place =>
    dsimp only [State.step, State.push]
    cases found : s.sending[place]? with
    | none => exact unmoved
    | some call =>
      obtain ⟨channel, caller, message⟩ := call
      have called := labelled.sending _ (List.mem_of_getElem? found)
      have others := fun call member =>
        labelled.sending call (List.mem_of_mem_eraseIdx (i := place) member)
      dsimp only
      split_ifs with room
      all_goals exact {
        sending := others
        receiving := labelled.receiving
        events := List.forall_mem_append.mpr ⟨labelled.events, by simpa using called⟩ }
  | pop place =>
    dsimp only [State.step, State.pop]
    cases found : s.receiving[place]? with
    | none => exact unmoved
    | some call =>
      obtain ⟨channel, caller⟩ := call
      have called := labelled.receiving _ (List.mem_of_getElem? found)
      dsimp only
      cases head : s.queue channel with
      | nil => exact unmoved
      | cons message queue =>
        exact {
          sending := labelled.sending
          receiving := fun call member =>
            labelled.receiving call (List.mem_of_mem_eraseIdx member)
          events := List.forall_mem_append.mpr ⟨labelled.events, by simpa using called⟩ }

end Channels
