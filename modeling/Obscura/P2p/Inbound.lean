import Obscura.Lib.OrdMap
import Obscura.P2p.HostPort

/-! # Inbound connection caps

The peer table of a node and the handlers of its connections. An accepted
connection is counted against the caps when it is accepted, and its peer is
registered later, in the handler of the connection; between the two any other
handler may register its own peer. The caps on registered inbound peers hold in
every state of a run exactly when every registration still has room for its peer.
-/

namespace Obscura.P2p

open Wire

/-- The most peers of a node. -/
def maxPeers : Nat := 32

/-- The most inbound peers from one host. -/
def maxInboundPerIP : Nat := 3

/-- The most inbound peers from one network group. -/
def maxInboundPerGroup : Nat := 4

/-- The places kept for outbound peers. -/
def reservedOutbound : Nat := 8

/-- The places open to inbound peers. -/
def maxInbound : Nat := maxPeers - reservedOutbound

/-- A registered peer: the remote address of its connection, and whether the node
dialled it. -/
structure Peer where
  conn : Bytes
  outbound : Bool
deriving DecidableEq, Repr

/-- The peers by remote address, the handlers that have started and are not
registered yet, and the remote addresses of the registered handlers. -/
structure Node where
  peers : OrdMap Bytes Peer := ∅
  starting : List Peer := []
  serving : List Bytes := []

/-! ## Admission -/

/-- The three counters of `admitInbound`. -/
structure Tally where
  inbound : Nat := 0
  perIP : Nat := 0
  perGroup : Nat := 0
deriving DecidableEq, Repr

/-- An inbound peer counted with the host and the group of an address. -/
def Tally.count (remote : Bytes) (tally : Tally) (p : Peer) : Tally :=
  if p.outbound then
    tally
  else
    { inbound := tally.inbound + 1
      perIP := if hostOf p.conn = hostOf remote then tally.perIP + 1 else tally.perIP
      perGroup := if ipGroup p.conn = ipGroup remote then tally.perGroup + 1 else tally.perGroup }

/-- The counts over all registered peers. -/
def tally (peers : OrdMap Bytes Peer) (remote : Bytes) : Tally :=
  peers.toList.foldl (fun tally entry => tally.count remote entry.2) {}

/-- The caps that a further inbound peer at `remote` has to leave room for. -/
def underCaps (peers : OrdMap Bytes Peer) (remote : Bytes) : Bool :=
  let counts := tally peers remote
  if counts.inbound ≥ maxInbound ∨ counts.perGroup ≥ maxInboundPerGroup then
    false
  else
    counts.perIP < maxInboundPerIP

/-- Whether a connection is let in; `groupBanned` is what the ban table says of
its address at that time. -/
def Node.admitInbound (n : Node) (remote : Bytes) (groupBanned : Bool) : Bool :=
  if groupBanned then false else underCaps n.peers remote

/-! ## Steps -/

/-- What happens at a node between two acquisitions of its lock. -/
inductive Event
  /-- The listener accepts a connection. -/
  | accept (remote : Bytes) (groupBanned : Bool)
  /-- A dial that found the table not full connects. -/
  | connected (remote : Bytes)
  /-- A started handler takes the lock to register its peer. -/
  | register (handler : Nat)
  /-- A registered handler ends and removes its peer. -/
  | finish (handler : Nat)
deriving DecidableEq, Repr

namespace Node

/-- `acceptLoop` on one connection: it goes on to the handshake, or is closed. -/
def acceptLoop (n : Node) (remote : Bytes) (groupBanned : Bool) : Node :=
  if n.admitInbound remote groupBanned then
    { n with starting := n.starting ++ [⟨remote, false⟩] }
  else
    n

/-- The head of `handle`: a full table drops the connection, else the peer is
stored under its remote address. -/
def handle (n : Node) (p : Peer) : Node :=
  if n.peers.size ≥ maxPeers then
    n
  else
    { n with peers := n.peers.insert p.conn p, serving := n.serving ++ [p.conn] }

/-- The deferred end of `handle`. -/
def drop (n : Node) (remote : Bytes) : Node :=
  { n with peers := n.peers.erase remote }

/-- The node after an event. -/
def step (n : Node) : Event → Node
  | .accept remote groupBanned => n.acceptLoop remote groupBanned
  | .connected remote => { n with starting := n.starting ++ [⟨remote, true⟩] }
  | .register handler =>
    match n.starting[handler]? with
    | none => n
    | some p => { n with starting := n.starting.eraseIdx handler }.handle p
  | .finish handler =>
    match n.serving[handler]? with
    | none => n
    | some remote => { n with serving := n.serving.eraseIdx handler }.drop remote

/-- The node after a history of events. -/
def run (n : Node) (events : List Event) : Node :=
  events.foldl step n

end Node

/-! ## Counting the registered peers -/

/-- The number of registered inbound peers whose remote address matches. -/
def inbound (matching : Bytes → Bool) (peers : OrdMap Bytes Peer) : Nat :=
  OrdMap.total (fun p => if !p.outbound && matching p.conn then 1 else 0) peers

/-- No cap on registered inbound peers is exceeded. -/
structure WithinCaps (peers : OrdMap Bytes Peer) : Prop where
  total : inbound (fun _ => true) peers ≤ maxInbound
  perGroup : ∀ group, inbound (fun remote => ipGroup remote = group) peers ≤ maxInboundPerGroup
  perIP : ∀ ip, inbound (fun remote => hostOf remote = ip) peers ≤ maxInboundPerIP

/-- Whether the peer of a handler that registers now still has room, without the
peer that it replaces. -/
def Node.HasRoom (n : Node) : Event → Prop
  | .register handler => ∀ p, n.starting[handler]? = some p → p.outbound = false →
      n.peers.size < maxPeers → underCaps (n.peers.erase p.conn) p.conn = true
  | _ => True

/-- Every registration of a run has room. -/
def Node.RoomyRun (n : Node) : List Event → Prop
  | [] => True
  | event :: events => n.HasRoom event ∧ (n.step event).RoomyRun events

/-- What the tally counts. -/
private theorem foldl_tally (remote : Bytes) (entries : List (Bytes × Peer)) (start : Tally) :
    entries.foldl (fun tally entry => tally.count remote entry.2) start =
      { inbound := start.inbound + (entries.map fun entry =>
          if !entry.2.outbound && true then 1 else 0).sum
        perIP := start.perIP + (entries.map fun entry =>
          if !entry.2.outbound && decide (hostOf entry.2.conn = hostOf remote) then 1 else 0).sum
        perGroup := start.perGroup + (entries.map fun entry =>
          if !entry.2.outbound && decide (ipGroup entry.2.conn = ipGroup remote)
            then 1 else 0).sum } := by
  induction entries generalizing start with
  | nil => rfl
  | cons entry entries ih =>
    rw [List.foldl_cons, ih]
    cases direction : entry.2.outbound with
    | true => simp [Tally.count, direction]
    | false =>
      by_cases host : hostOf entry.2.conn = hostOf remote <;>
        by_cases group : ipGroup entry.2.conn = ipGroup remote <;>
          simp [Tally.count, direction, host, group, Nat.add_assoc]

theorem tally_eq (peers : OrdMap Bytes Peer) (remote : Bytes) :
    tally peers remote =
      { inbound := inbound (fun _ => true) peers
        perIP := inbound (fun other => hostOf other = hostOf remote) peers
        perGroup := inbound (fun other => ipGroup other = ipGroup remote) peers } := by
  rw [tally, foldl_tally]
  simp only [Nat.zero_add]
  rfl

theorem underCaps_iff {peers : OrdMap Bytes Peer} {remote : Bytes} :
    underCaps peers remote = true ↔
      inbound (fun _ => true) peers < maxInbound ∧
        inbound (fun other => ipGroup other = ipGroup remote) peers < maxInboundPerGroup ∧
        inbound (fun other => hostOf other = hostOf remote) peers < maxInboundPerIP := by
  rw [underCaps, tally_eq]
  simp only
  split_ifs with full
  · simp only [false_iff]
    omega
  · rw [decide_eq_true_eq]
    omega

theorem inbound_erase_le (matching : Bytes → Bool) (peers : OrdMap Bytes Peer) (remote : Bytes) :
    inbound matching (peers.erase remote) ≤ inbound matching peers := by
  cases found : peers[remote]? with
  | none => rw [OrdMap.erase_absent peers found]
  | some p =>
    have removed := OrdMap.total_erase
      (fun p : Peer => if !p.outbound && matching p.conn then 1 else 0) peers found
    exact Nat.le.intro removed

theorem inbound_insert (matching : Bytes → Bool) (peers : OrdMap Bytes Peer) (p : Peer) :
    inbound matching (peers.insert p.conn p) =
      (if !p.outbound && matching p.conn then 1 else 0) +
        inbound matching (peers.erase p.conn) := by
  have absent : (peers.erase p.conn)[p.conn]? = none := by
    rw [OrdMap.lookup_erase, if_pos rfl]
  have replaced : (peers.erase p.conn).insert p.conn p = peers.insert p.conn p := by
    apply Std.ExtTreeMap.ext_getElem?
    intro key
    rw [OrdMap.lookup_insert, OrdMap.lookup_insert, OrdMap.lookup_erase]
    split_ifs
    · rfl
    · rfl
  rw [← replaced]
  exact OrdMap.total_insert _ _ p absent

namespace WithinCaps

variable {peers : OrdMap Bytes Peer}

theorem empty : WithinCaps ∅ where
  total := by
    rw [inbound, OrdMap.total_empty]
    exact Nat.zero_le _
  perGroup group := by
    rw [inbound, OrdMap.total_empty]
    exact Nat.zero_le _
  perIP ip := by
    rw [inbound, OrdMap.total_empty]
    exact Nat.zero_le _

theorem erase (within : WithinCaps peers) (remote : Bytes) : WithinCaps (peers.erase remote) where
  total := (inbound_erase_le _ peers remote).trans within.total
  perGroup group := (inbound_erase_le _ peers remote).trans (within.perGroup group)
  perIP ip := (inbound_erase_le _ peers remote).trans (within.perIP ip)

theorem insert_outbound (within : WithinCaps peers) {p : Peer} (outbound : p.outbound = true) :
    WithinCaps (peers.insert p.conn p) := by
  have others := within.erase p.conn
  constructor
  · rw [inbound_insert, outbound]
    simpa using others.total
  · intro group
    rw [inbound_insert, outbound]
    simpa using others.perGroup group
  · intro ip
    rw [inbound_insert, outbound]
    simpa using others.perIP ip

theorem insert_inbound_iff (within : WithinCaps peers) {p : Peer} (direction : p.outbound = false) :
    WithinCaps (peers.insert p.conn p) ↔ underCaps (peers.erase p.conn) p.conn = true := by
  have others := within.erase p.conn
  rw [underCaps_iff]
  constructor
  · intro after
    have total := after.total
    have group := after.perGroup (ipGroup p.conn)
    have ip := after.perIP (hostOf p.conn)
    rw [inbound_insert, direction] at total group ip
    simp only [Bool.not_false, Bool.and_self, decide_true, if_true] at total group ip
    omega
  · rintro ⟨total, group, ip⟩
    constructor
    · rw [inbound_insert, direction]
      simp only [Bool.not_false, Bool.and_self, if_true]
      omega
    · intro group'
      rw [inbound_insert, direction]
      by_cases same : ipGroup p.conn = group'
      · subst same
        simp only [Bool.not_false, Bool.and_self, decide_true, if_true]
        omega
      · simpa [same] using others.perGroup group'
    · intro ip'
      rw [inbound_insert, direction]
      by_cases same : hostOf p.conn = ip'
      · subst same
        simp only [Bool.not_false, Bool.and_self, decide_true, if_true]
        omega
      · simpa [same] using others.perIP ip'

end WithinCaps

/-! ## Runs -/

namespace Node

variable {n : Node}

/-- A step keeps the caps exactly when a registration in it has room. -/
theorem step_withinCaps_iff (within : WithinCaps n.peers) (event : Event) :
    WithinCaps (n.step event).peers ↔ n.HasRoom event := by
  cases event with
  | accept remote groupBanned =>
    refine iff_of_true ?_ trivial
    rw [step, acceptLoop]
    split_ifs
    · exact within
    · exact within
  | connected remote => exact iff_of_true within trivial
  | register handler =>
    cases started : n.starting[handler]? with
    | none =>
      refine iff_of_true ?_ fun p found => ?_
      · simpa only [step, started] using within
      · rw [started] at found
        cases found
    | some p =>
      have room : n.HasRoom (.register handler) ↔ (p.outbound = false →
          n.peers.size < maxPeers → underCaps (n.peers.erase p.conn) p.conn = true) := by
        constructor
        · intro room
          exact room p started
        · intro room other found
          rw [started] at found
          cases found
          exact room
      rw [room]
      simp only [step, started, handle]
      by_cases full : n.peers.size ≥ maxPeers
      · rw [if_pos full]
        exact iff_of_true within fun _ free => absurd full (Nat.not_le.mpr free)
      · rw [if_neg full]
        cases direction : p.outbound with
        | true => exact iff_of_true (within.insert_outbound direction) nofun
        | false =>
          rw [within.insert_inbound_iff direction]
          exact ⟨fun room _ _ => room, fun room => room rfl (Nat.not_le.mp full)⟩
  | finish handler =>
    refine iff_of_true ?_ trivial
    rw [step]
    cases n.serving[handler]? with
    | none => exact within
    | some remote => exact within.erase remote

theorem run_withinCaps_iff (within : WithinCaps n.peers) (events : List Event) :
    (∀ k, WithinCaps (n.run (events.take k)).peers) ↔ n.RoomyRun events := by
  induction events generalizing n with
  | nil =>
    refine iff_of_true (fun k => ?_) trivial
    rw [List.take_nil]
    exact within
  | cons event events ih =>
    constructor
    · intro kept
      have next : WithinCaps (n.step event).peers := kept 1
      exact ⟨(step_withinCaps_iff within event).mp next, (ih next).mp fun k => kept (k + 1)⟩
    · rintro ⟨room, rest⟩ k
      cases k with
      | zero => exact within
      | succ k => exact (ih ((step_withinCaps_iff within event).mpr room)).mpr rest k

end Node

/-- **Inbound caps.** In a run of a node that starts without peers, every state reached has at
most `maxInbound` registered inbound peers, `maxInboundPerGroup` of each group and
`maxInboundPerIP` of each address exactly when every registration of an inbound peer finds the
counts that `admitInbound` compares still below the caps. -/
theorem inbound_caps_iff (events : List Event) :
    (∀ k, WithinCaps (({} : Node).run (events.take k)).peers) ↔ ({} : Node).RoomyRun events :=
  Node.run_withinCaps_iff WithinCaps.empty events

/-- Four connections from one address that are accepted before the first of their handlers
registers its peer. -/
def simultaneous : List Event :=
  let port (digit : UInt8) : Bytes := ascii "203.0.113.7:808" ++ [digit]
  [.accept (port 48) false, .accept (port 49) false, .accept (port 50) false,
    .accept (port 51) false, .register 0, .register 0, .register 0, .register 0]

/-- All four are registered, where three of one address are allowed. -/
theorem simultaneous_exceeds : ¬ ∀ (events : List Event) (k : Nat),
    WithinCaps (({} : Node).run (events.take k)).peers := by
  intro capped
  have counted : (tally (({} : Node).run (simultaneous.take 8)).peers
      (ascii "203.0.113.7:8080")).perIP = 4 := by
    decide
  rw [tally_eq] at counted
  have few := (capped simultaneous 8).perIP (hostOf (ascii "203.0.113.7:8080"))
  have four : 4 ≤ maxInboundPerIP := counted ▸ few
  exact absurd four (by decide)

end Obscura.P2p
