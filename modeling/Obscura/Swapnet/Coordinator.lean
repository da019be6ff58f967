import Obscura.Lib.Checked
import Obscura.Store

/-! # The session registry

A coordinator's registry of in-flight swap sessions: how a session is registered and taken
out, and how the peer it is bound to changes when a counterparty reconnects. Registration
bounds the number of sessions and the number bound to one peer; a later rebind does not look
at either bound. What a session does in between is in the drivers.
-/

namespace Obscura

open Wire Checked

namespace Config

/-- The most sessions of a coordinator. -/
def swapMaxSessions : Nat := 256

/-- The most sessions that one peer may open. -/
def swapMaxSessionsPerPeer : Nat := 8

end Config

namespace Swapnet

/-! ## Envelopes -/

/-- The kind of an opening message. -/
def kindInit : UInt8 := 1

/-- The longest payload. -/
def maxEnvelopePayload : Nat := 2 ^ 16

/-- An envelope: the swap, the kind and the payload. -/
structure Envelope where
  swapID : Bytes
  kind : UInt8
  payload : Bytes

/-- `ParseEnvelope`. -/
def parseEnvelope (b : Bytes) : Option Envelope :=
  if b.length < 37 then
    none
  else
    let n := ofBigEndian ((b.drop 33).take 4)
    if maxEnvelopePayload < n ∨ n ≠ b.length - 37 then
      none
    else
      some ⟨b.take 32, b.getD 32 0, b.drop 37⟩

/-- A routing handle up to its last colon. -/
def hostPart (addr : Bytes) : Bytes :=
  if 58 ∈ addr then (((addr.reverse.dropWhile (· ≠ 58)).drop 1)).reverse else addr

/-- `sameHost`: two addresses up to their ports. -/
def sameHost (a b : Bytes) : Bool := hostPart a == hostPart b

/-! ## The registry -/

/-- The part that this node plays in a session. -/
inductive Role where
  | maker
  | taker
deriving DecidableEq

/-- A session; an empty peer is none. -/
structure Session where
  id : Bytes
  role : Role
  peer : Bytes

/-- The sessions of a node, by swap. -/
structure Coordinator where
  sessions : GoMap Session := ∅

namespace Coordinator

/-- How many sessions are bound to a peer. -/
def bound (c : Coordinator) (peer : Bytes) : Nat :=
  OrdMap.total (fun s => if s.peer = peer then 1 else 0) c.sessions

/-- `register`: a session under a new swap, while there is room. -/
def register (c : Coordinator) (s : Session) : Except String Coordinator := do
  reject (c.sessions[s.id]?.isSome) "swapnet: swap already in flight"
  reject (0 < Config.swapMaxSessions ∧ Config.swapMaxSessions ≤ c.sessions.size)
    "swapnet: at session cap — refusing new swap"
  reject (0 < Config.swapMaxSessionsPerPeer ∧ s.peer ≠ [] ∧
      Config.swapMaxSessionsPerPeer ≤ c.bound s.peer)
    "swapnet: peer at per-peer session cap — refusing new swap"
  return { c with sessions := c.sessions.insert s.id s }

/-- `unregister`. -/
def unregister (c : Coordinator) (id : Bytes) : Coordinator :=
  { c with sessions := c.sessions.erase id }

/-- `setPeer` on a registered session. -/
def setPeer (c : Coordinator) (id peer : Bytes) : Coordinator :=
  match c.sessions[id]? with
  | none => c
  | some s => { c with sessions := c.sessions.insert id { s with peer } }

/-- Open a maker session for an Init that the gate accepts. -/
def startMaker (accepts : Bytes → Bool) (c : Coordinator) (peer : Bytes) (env : Envelope) :
    Coordinator :=
  if !accepts env.payload then
    c
  else
    match c.register ⟨env.swapID, .maker, peer⟩ with
    | .ok c => c
    | .error _ => c

/-- Route an inbound envelope. A session is rebound to its counterparty's new port; a first
Init opens a session when this node makes swaps. `accepts` is the answer of the parser and of
the `AcceptInit` gate at the time of the call. -/
def deliver (makes : Bool) (accepts : Bytes → Bool) (c : Coordinator) (fromPeer raw : Bytes) :
    Coordinator :=
  match parseEnvelope raw with
  | none => c
  | some env =>
    match c.sessions[env.swapID]? with
    | some s =>
      if fromPeer ≠ s.peer ∧ sameHost fromPeer s.peer then c.setPeer env.swapID fromPeer
      else c
    | none => if env.kind = kindInit ∧ makes then c.startMaker accepts fromPeer env else c

/-- Open a session as the taker under the first of five minted ids that is free. -/
def take (c : Coordinator) (peer : Bytes) : (minted : List Bytes) → Except String Unit × Coordinator
  | [] => (.error "swapnet: no attempt left", c)
  | id :: minted =>
    match c.register ⟨id, .taker, peer⟩ with
    | .ok c => (.ok (), c)
    | .error error => if minted = [] then (.error error, c) else take c peer minted

/-- One attempt of `send` to reach a counterparty again: when the transport resolves a live
handle for the session's host, the session is bound to it. -/
def resolve (c : Coordinator) (id : Bytes) (live : Option Bytes) : Coordinator :=
  match live with
  | none => c
  | some peer => c.setPeer id peer

/-! ## Runs -/

/-- What changes the registry. -/
inductive Event where
  | deliver (makes : Bool) (accepts : Bytes → Bool) (fromPeer raw : Bytes)
  | take (peer : Bytes) (minted : List Bytes)
  | resolve (id : Bytes) (live : Option Bytes)
  | finish (id : Bytes)

/-- The coordinator after an event. -/
def step (c : Coordinator) : Event → Coordinator
  | .deliver makes accepts fromPeer raw => c.deliver makes accepts fromPeer raw
  | .take peer minted => (c.take peer (minted.take 5)).2
  | .resolve id live => c.resolve id live
  | .finish id => c.unregister id

/-- The coordinator after a history of events. -/
def run (c : Coordinator) (events : List Event) : Coordinator := events.foldl step c

/-- The session an event binds to another peer, and that peer. -/
def rebinds (c : Coordinator) : Event → Option (Session × Bytes)
  | .deliver _ _ fromPeer raw =>
    ((parseEnvelope raw).bind fun env => c.sessions[env.swapID]?).bind fun s =>
      if fromPeer ≠ s.peer ∧ sameHost fromPeer s.peer then some (s, fromPeer) else none
  | .resolve id live =>
    (c.sessions[id]?).bind fun s => live.bind fun peer =>
      if peer ≠ s.peer then some (s, peer) else none
  | _ => none

/-- A rebind moves a session to a peer that has room for it. -/
def Roomy (c : Coordinator) (event : Event) : Prop :=
  ∀ s peer, c.rebinds event = some (s, peer) →
    peer = [] ∨ c.bound peer < Config.swapMaxSessionsPerPeer

/-- So does every rebind of a run. -/
def RoomyRun (c : Coordinator) : List Event → Prop
  | [] => True
  | event :: events => c.Roomy event ∧ (c.step event).RoomyRun events

/-! ## The caps -/

/-- What registration keeps whatever the peers do. -/
structure Registered (c : Coordinator) : Prop where
  few : c.sessions.size ≤ Config.swapMaxSessions
  ids : ∀ (id : Bytes) (s : Session), c.sessions[id]? = some s → s.id = id

/-- No peer holds more sessions than one peer may. -/
def PeerCapped (c : Coordinator) : Prop :=
  ∀ peer, peer ≠ [] → c.bound peer ≤ Config.swapMaxSessionsPerPeer

variable {c : Coordinator}

/-- What a registration says. -/
theorem register_ok {s : Session} {c' : Coordinator} (registered : c.register s = .ok c') :
    c.sessions[s.id]? = none ∧ c.sessions.size < Config.swapMaxSessions ∧
      (s.peer ≠ [] → c.bound s.peer < Config.swapMaxSessionsPerPeer) ∧
      c' = { c with sessions := c.sessions.insert s.id s } := by
  unfold register at registered
  simp only [bind_ok, reject_ok, exists_const, not_and, not_le] at registered
  obtain ⟨absent, room, roomForPeer, same⟩ := registered
  exact ⟨by simpa using absent, room (by decide), roomForPeer (by decide),
    (Except.ok.inj same).symm⟩

theorem size_insert {s : Session} (absent : c.sessions[s.id]? = none) :
    (c.sessions.insert s.id s).size = c.sessions.size + 1 := by
  have outside : s.id ∉ c.sessions := by
    rw [Std.ExtTreeMap.mem_iff_isSome_getElem?, absent]
    exact Bool.false_ne_true
  exact Std.ExtTreeMap.size_insert.trans (if_neg outside)

theorem setPeer_same {id peer : Bytes} {s : Session} (found : c.sessions[id]? = some s)
    (same : peer = s.peer) : c.setPeer id peer = c := by
  have kept : c.sessions.insert id s = c.sessions := by
    refine Std.ExtTreeMap.ext_getElem? fun key => ?_
    rw [OrdMap.lookup_insert]
    split_ifs with equal
    · rw [← equal, found]
    · rfl
  have renewed : c.setPeer id peer = { c with sessions := c.sessions.insert id s } := by
    rw [setPeer, found, same]
  rw [renewed, kept]

theorem bound_setPeer {id : Bytes} (peer : Bytes) {s : Session} (found : c.sessions[id]? = some s)
    (other : Bytes) : (c.setPeer id peer).bound other + (if s.peer = other then 1 else 0) =
      c.bound other + (if peer = other then 1 else 0) := by
  have moved : (c.setPeer id peer).sessions = (c.sessions.erase id).insert id { s with peer } := by
    have renewed : c.setPeer id peer =
        { c with sessions := c.sessions.insert id { s with peer } } := by
      rw [setPeer, found]
    rw [renewed]
    refine Std.ExtTreeMap.ext_getElem? fun key => ?_
    rw [OrdMap.lookup_insert, OrdMap.lookup_insert, OrdMap.lookup_erase]
    by_cases same : id = key
    · rw [if_pos same, if_pos same]
    · rw [if_neg same, if_neg same, if_neg same]
  have absent : (c.sessions.erase id)[id]? = none := by
    rw [OrdMap.lookup_erase, if_pos rfl]
  have taken := OrdMap.total_erase (fun s : Session => if s.peer = other then 1 else 0) c.sessions
    found
  have put := OrdMap.total_insert (fun s : Session => if s.peer = other then 1 else 0)
    (c.sessions.erase id) { s with peer } absent
  unfold bound
  rw [moved, put]
  dsimp only at taken ⊢
  omega

namespace Registered

theorem empty : ({} : Coordinator).Registered where
  few := Nat.zero_le _
  ids := fun id s found => absurd found (by simp)

/-- A registration keeps the sessions registered. -/
theorem register (registered : c.Registered) {s : Session} {c' : Coordinator}
    (accepted : c.register s = .ok c') : c'.Registered := by
  obtain ⟨absent, room, -, rfl⟩ := register_ok accepted
  constructor
  case few => exact (size_insert absent).trans_le room
  case ids =>
    intro id found lookup
    rw [OrdMap.lookup_insert] at lookup
    split_ifs at lookup with same
    · rw [← Option.some.inj lookup, same]
    · exact registered.ids id found lookup

/-- So does a peer that is set. -/
theorem setPeer (registered : c.Registered) (id peer : Bytes) : (c.setPeer id peer).Registered := by
  unfold Coordinator.setPeer
  cases found : c.sessions[id]? with
  | none => exact registered
  | some s =>
    have present : id ∈ c.sessions := by
      rw [Std.ExtTreeMap.mem_iff_isSome_getElem?, found]
      rfl
    constructor
    case few =>
      have kept : (c.sessions.insert id { s with peer }).size = c.sessions.size :=
        Std.ExtTreeMap.size_insert.trans (if_pos present)
      exact kept.trans_le registered.few
    case ids =>
      intro key held lookup
      change (c.sessions.insert id { s with peer })[key]? = _ at lookup
      rw [OrdMap.lookup_insert] at lookup
      split_ifs at lookup with same
      · rw [← Option.some.inj lookup, ← same]
        exact registered.ids id s found
      · exact registered.ids key held lookup

/-- So does a session that ends. -/
theorem unregister (registered : c.Registered) (id : Bytes) : (c.unregister id).Registered := by
  constructor
  case few => exact Std.ExtTreeMap.size_erase_le.trans registered.few
  case ids =>
    intro key held lookup
    change (c.sessions.erase id)[key]? = _ at lookup
    rw [OrdMap.lookup_erase] at lookup
    split_ifs at lookup
    exact registered.ids key held lookup

end Registered

namespace PeerCapped

theorem empty : ({} : Coordinator).PeerCapped := by
  intro peer _
  change OrdMap.total _ (∅ : GoMap Session) ≤ _
  rw [OrdMap.total_empty]
  exact Nat.zero_le _

theorem register (capped : c.PeerCapped) {s : Session} {c' : Coordinator}
    (accepted : c.register s = .ok c') : c'.PeerCapped := by
  obtain ⟨absent, -, room, rfl⟩ := register_ok accepted
  intro peer handle
  have added := OrdMap.total_insert (fun s : Session => if s.peer = peer then 1 else 0) c.sessions
    s absent
  change OrdMap.total _ (c.sessions.insert s.id s) ≤ _
  rw [added]
  by_cases same : s.peer = peer
  · have fits := room (same ▸ handle)
    rw [same] at fits
    rw [if_pos same, Nat.add_comm]
    exact fits
  · rw [if_neg same, Nat.zero_add]
    exact capped peer handle

theorem setPeer (capped : c.PeerCapped) {id peer : Bytes} {s : Session}
    (found : c.sessions[id]? = some s)
    (room : peer = s.peer ∨ peer = [] ∨ c.bound peer < Config.swapMaxSessionsPerPeer) :
    (c.setPeer id peer).PeerCapped := by
  intro other handle
  have moved := bound_setPeer peer found other
  have below := capped other handle
  by_cases target : peer = other
  · rw [if_pos target] at moved
    rcases room with same | none | fits
    · rw [if_pos (same ▸ target)] at moved
      omega
    · exact absurd (target ▸ none) handle
    · rw [target] at fits
      omega
  · rw [if_neg target] at moved
    omega

theorem unregister (capped : c.PeerCapped) (id : Bytes) : (c.unregister id).PeerCapped := by
  intro peer handle
  cases found : c.sessions[id]? with
  | none =>
    have same : (c.unregister id).sessions = c.sessions := OrdMap.erase_absent c.sessions found
    unfold bound
    rw [same]
    exact capped peer handle
  | some s =>
    have taken := OrdMap.total_erase (fun s : Session => if s.peer = peer then 1 else 0)
      c.sessions found
    have below := capped peer handle
    change OrdMap.total _ (c.sessions.erase id) ≤ _
    unfold bound at below
    omega

end PeerCapped

/-! ## The events -/

theorem startMaker_cases (accepts : Bytes → Bool) (c : Coordinator) (peer : Bytes)
    (env : Envelope) :
    c.startMaker accepts peer env = c ∨
      ∃ s c', c.register s = .ok c' ∧ c.startMaker accepts peer env = c' := by
  unfold startMaker
  split_ifs
  · exact Or.inl rfl
  · cases result : c.register ⟨env.swapID, .maker, peer⟩ with
    | ok c' => exact Or.inr ⟨_, c', result, rfl⟩
    | error error => exact Or.inl rfl

/-- What a take does. -/
theorem take_cases (c : Coordinator) (peer : Bytes) (minted : List Bytes) :
    (c.take peer minted).2 = c ∨ ∃ s c', c.register s = .ok c' ∧ (c.take peer minted).2 = c' := by
  induction minted with
  | nil => exact Or.inl rfl
  | cons id minted ih =>
    rw [take]
    cases result : c.register ⟨id, .taker, peer⟩ with
    | ok c' => exact Or.inr ⟨_, c', result, rfl⟩
    | error error =>
      dsimp only
      split_ifs
      · exact Or.inl rfl
      · exact ih

/-- What an event can do: nothing, register a session, end one, or rebind one. -/
theorem step_cases (c : Coordinator) (event : Event) :
    (c.rebinds event = none ∧ (c.step event = c ∨
      (∃ s c', c.register s = .ok c' ∧ c.step event = c') ∨ ∃ id, c.step event = c.unregister id)) ∨
    ∃ id s peer, c.sessions[id]? = some s ∧ peer ≠ s.peer ∧ c.rebinds event = some (s, peer) ∧
      c.step event = c.setPeer id peer := by
  cases event with
  | deliver makes accepts fromPeer raw =>
    rw [step, deliver, rebinds]
    cases parsed : parseEnvelope raw with
    | none => exact Or.inl ⟨rfl, Or.inl rfl⟩
    | some env =>
      dsimp only [Option.bind_some]
      cases found : c.sessions[env.swapID]? with
      | some s =>
        dsimp only [Option.bind_some]
        by_cases moved : fromPeer ≠ s.peer ∧ sameHost fromPeer s.peer = true
        · rw [if_pos moved, if_pos moved]
          exact Or.inr ⟨_, s, fromPeer, found, moved.1, rfl, rfl⟩
        · rw [if_neg moved, if_neg moved]
          exact Or.inl ⟨rfl, Or.inl rfl⟩
      | none =>
        dsimp only
        refine Or.inl ⟨rfl, ?_⟩
        split_ifs
        · rcases startMaker_cases accepts c fromPeer env with same | registered
          · exact Or.inl same
          · exact Or.inr (Or.inl registered)
        · exact Or.inl rfl
  | take peer minted =>
    refine Or.inl ⟨rfl, ?_⟩
    rcases take_cases c peer (minted.take 5) with same | registered
    · exact Or.inl same
    · exact Or.inr (Or.inl registered)
  | resolve id live =>
    cases live with
    | none =>
      refine Or.inl ⟨?_, Or.inl rfl⟩
      rw [rebinds]
      cases c.sessions[id]? with
      | none => rfl
      | some s => rfl
    | some peer =>
      change (_ ∧ (c.setPeer id peer = c ∨ _)) ∨ _
      rw [rebinds]
      cases found : c.sessions[id]? with
      | none =>
        refine Or.inl ⟨rfl, Or.inl ?_⟩
        rw [setPeer, found]
      | some s =>
        rw [Option.bind_some, Option.bind_some]
        by_cases moved : peer ≠ s.peer
        · rw [if_pos moved]
          exact Or.inr ⟨id, s, peer, found, moved, rfl, rfl⟩
        · rw [if_neg moved]
          exact Or.inl ⟨rfl, Or.inl (setPeer_same found (not_not.mp moved))⟩
  | finish id => exact Or.inl ⟨rfl, Or.inr (Or.inr ⟨id, rfl⟩)⟩

theorem Registered.step (registered : c.Registered) (event : Event) :
    (c.step event).Registered := by
  rcases step_cases c event with ⟨-, same | ⟨s, c', accepted, same⟩ | ⟨id, same⟩⟩ |
    ⟨id, s, peer, -, -, -, same⟩
  · rwa [same]
  · rw [same]
    exact registered.register accepted
  · rw [same]
    exact registered.unregister id
  · rw [same]
    exact registered.setPeer id peer

theorem PeerCapped.step_iff (capped : c.PeerCapped) (event : Event) :
    (c.step event).PeerCapped ↔ c.Roomy event := by
  rcases step_cases c event with ⟨still, cases⟩ | ⟨id, s, peer, found, moved, rebound, same⟩
  · have roomy : c.Roomy event := by
      intro s peer rebound
      rw [still] at rebound
      exact nomatch rebound
    refine iff_of_true ?_ roomy
    rcases cases with same | ⟨s, c', accepted, same⟩ | ⟨id, same⟩
    · rwa [same]
    · rw [same]
      exact capped.register accepted
    · rw [same]
      exact capped.unregister id
  · rw [same]
    constructor
    · intro kept s' peer' rebound'
      rw [rebound] at rebound'
      obtain ⟨rfl, rfl⟩ := Prod.mk.inj (Option.some.inj rebound')
      by_cases none : peer = []
      · exact Or.inl none
      · right
        have count := bound_setPeer peer found peer
        rw [if_neg (Ne.symm moved), if_pos rfl] at count
        have below := kept peer none
        omega
    · exact fun roomy => capped.setPeer found (Or.inr (roomy s peer rebound))

/-! ## Along a run -/

theorem Registered.run (registered : c.Registered) (events : List Event) :
    (c.run events).Registered := by
  induction events generalizing c with
  | nil => exact registered
  | cons event events ih => exact ih (registered.step event)

theorem PeerCapped.run_iff (capped : c.PeerCapped) (events : List Event) :
    (∀ n, (c.run (events.take n)).PeerCapped) ↔ c.RoomyRun events := by
  induction events generalizing c with
  | nil =>
    refine iff_of_true (fun n => ?_) trivial
    rw [List.take_nil]
    exact capped
  | cons event events ih =>
    constructor
    · intro kept
      have next : (c.step event).PeerCapped := kept 1
      exact ⟨(capped.step_iff event).mp next, (ih next).mp fun n => kept (n + 1)⟩
    · rintro ⟨roomy, rest⟩ n
      cases n with
      | zero => exact capped
      | succ n => exact (ih ((capped.step_iff event).mpr roomy)).mpr rest n

end Coordinator

open Coordinator

/-- **Session caps.** In every run of a coordinator that starts with no session, every state
has at most the allowed number of sessions and one for each id; and every state binds at most
the allowed number to each peer exactly when every rebind moves a session to a peer below its
cap. -/
theorem session_caps_iff (events : List Event) :
    (∀ n, (({} : Coordinator).run (events.take n)).Registered) ∧
      ((∀ n, (({} : Coordinator).run (events.take n)).PeerCapped) ↔
        ({} : Coordinator).RoomyRun events) :=
  ⟨fun n => Registered.empty.run (events.take n), PeerCapped.empty.run_iff events⟩

/-- Eight sessions with a peer on one port, a ninth with the same host on another port, and a
message of the ninth from the first port. -/
def reconnect : List Event :=
  let port (n : UInt8) : Bytes := [104, 58, n]
  let id (n : UInt8) : Bytes := List.replicate 32 n
  ((List.range 8).map fun n => Event.take (port 49) [id n.toUInt8]) ++
    [.take (port 50) [id 8], .deliver true (fun _ => true) (port 49) (id 8 ++ [2, 0, 0, 0, 0])]

/-- After the rebind nine sessions are bound to one peer. -/
theorem reconnect_exceeds : ¬ ∀ (events : List Event) (n : Nat),
    (({} : Coordinator).run (events.take n)).PeerCapped := by
  intro capped
  have nine : (({} : Coordinator).run (reconnect.take 10)).bound [104, 58, 49] = 9 := by
    decide
  have few := capped reconnect 10 [104, 58, 49] (by decide)
  rw [nine] at few
  exact absurd few (by decide)

end Swapnet

end Obscura
