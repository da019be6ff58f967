import Obscura.Lib.Channels
import Obscura.Swapnet.Coordinator

/-! # The browser relay

Swaps of browser takers over HTTP: a session per swap with a bounded inbox for the maker's
messages. `Send` and `Recv` find their session under the lock and use its inbox after the lock
is released, so a session may be closed, evicted and opened again while they are in flight.
Whatever the order, a session hands out what it accepted once and in order, only to receivers
of its own swap, and never what was sent to an earlier session (`relay_run`).
-/

namespace Obscura

open Wire Channels

namespace Config

/-- The browser relay's limits; the time is in seconds. -/
def relayInboxCap : Nat := 16

/-- The most sessions of a relay. -/
def relayMaxSessions : Nat := 1024

/-- The seconds without traffic after which a session may go. -/
def relaySessionTTL : Int := 900

end Config

namespace Swapnet

/-! ## Envelopes as bytes -/

/-- `Serialize`: the swap, the kind, the payload after its length. -/
def Envelope.serialize (e : Envelope) : Bytes :=
  e.swapID ++ [e.kind] ++ bigEndian 4 e.payload.length ++ e.payload

/-- An envelope of given parts. -/
theorem parseEnvelope_parts {id size payload : Bytes} {kind : UInt8} (width : id.length = 32)
    (header : size.length = 4) :
    parseEnvelope (id ++ [kind] ++ size ++ payload) =
      if maxEnvelopePayload < ofBigEndian size ∨ ofBigEndian size ≠ payload.length then none
      else some ⟨id, kind, payload⟩ := by
  have length : (id ++ [kind] ++ size ++ payload).length = 37 + payload.length := by
    simp only [List.length_append, List.length_singleton, width, header]
  have front : (id ++ [kind]).length = 33 := by
    rw [List.length_append, width, List.length_singleton]
  have sizeAt : (id ++ [kind] ++ size ++ payload).drop 33 = size ++ payload := by
    rw [List.append_assoc, List.drop_left' front]
  have payloadAt : (id ++ [kind] ++ size ++ payload).drop 37 = payload := by
    rw [List.drop_left' (by rw [List.length_append, front, header])]
  have idAt : (id ++ [kind] ++ size ++ payload).take 32 = id := by
    rw [List.append_assoc, List.append_assoc, List.take_left' width]
  have kindAt : (id ++ [kind] ++ size ++ payload).getD 32 0 = kind := by
    rw [List.append_assoc, List.append_assoc, List.getD_append_right _ _ _ _ width.le, width]
    rfl
  unfold parseEnvelope
  rw [if_neg (by omega)]
  dsimp only
  rw [sizeAt, payloadAt, idAt, kindAt, List.take_left' header, length, Nat.add_sub_cancel_left]

theorem parseEnvelope_iff {b : Bytes} {e : Envelope} :
    parseEnvelope b = some e ↔
      e.swapID.length = 32 ∧ e.payload.length ≤ 2 ^ 16 ∧ b = e.serialize := by
  constructor
  · intro parsed
    have enough : 37 ≤ b.length := by
      by_contra short
      rw [parseEnvelope, if_pos (Nat.not_le.mp short)] at parsed
      cases parsed
    obtain ⟨id, rest, width, rfl⟩ : ∃ id rest : Bytes, id.length = 32 ∧ b = id ++ rest :=
      ⟨b.take 32, b.drop 32, List.length_take_of_le (by omega), (List.take_append_drop 32 b).symm⟩
    rw [List.length_append, width] at enough
    cases rest with
    | nil => simp at enough
    | cons kind rest =>
      obtain ⟨size, payload, header, rfl⟩ :
          ∃ size payload : Bytes, size.length = 4 ∧ rest = size ++ payload := by
        rw [List.length_cons] at enough
        exact ⟨rest.take 4, rest.drop 4, List.length_take_of_le (by omega),
          (List.take_append_drop 4 rest).symm⟩
      have parts : id ++ kind :: (size ++ payload) = id ++ [kind] ++ size ++ payload := by
        simp only [List.append_assoc, List.cons_append, List.nil_append]
      rw [parts, parseEnvelope_parts width header] at parsed
      split_ifs at parsed with bad
      obtain rfl := Option.some.inj parsed
      rw [not_or, not_lt, not_not] at bad
      refine ⟨width, bad.2 ▸ bad.1, ?_⟩
      rw [parts, Envelope.serialize, ← bad.2, bigEndian_ofBigEndian header]
  · rintro ⟨width, small, rfl⟩
    have word : e.payload.length < 256 ^ 4 := lt_of_le_of_lt small (by decide)
    rw [Envelope.serialize, parseEnvelope_parts width (length_bigEndian 4 _), ofBigEndian_bigEndian,
      Nat.mod_eq_of_lt word, if_neg]
    rw [not_or, not_lt, not_not]
    exact ⟨small, rfl⟩

end Swapnet

namespace Swaprelay

open Swapnet

/-- A message of a session. -/
structure Msg where
  kind : UInt8
  payload : Bytes

/-- The sessions by the text of their swap id. A session is the address of its inbox, which is
also the address of its last activity; the calls in flight carry the text they were made with. -/
structure Relay where
  sessions : GoMap Nat := ∅
  touched : List Int := []
  inboxes : State Bytes Msg := {}

/-- The nibble of a digit of either case. -/
def hexNibble (digit : UInt8) : Option UInt8 :=
  if 48 ≤ digit ∧ digit ≤ 57 then some (digit - 48)
  else if 97 ≤ digit ∧ digit ≤ 102 then some (digit - 87)
  else if 65 ≤ digit ∧ digit ≤ 70 then some (digit - 55)
  else none

/-- Lower and upper case digits. -/
def hexDecode : Bytes → Option Bytes
  | [] => some []
  | [_] => none
  | high :: low :: rest => do
      let high ← hexNibble high
      let low ← hexNibble low
      let rest ← hexDecode rest
      return (high <<< 4 ||| low) :: rest

/-- `validSwapID`: 64 digits. -/
def validSwapID (hexID : Bytes) : Bool :=
  hexID.length = 64 ∧ (hexDecode hexID).isSome

namespace Relay

/-- `touch`: the time of the last traffic. -/
def touch (r : Relay) (hexID : Bytes) (now : Int) : Relay :=
  match r.sessions[hexID]? with
  | none => r
  | some session => { r with touched := r.touched.set session now }

/-- Whether a session has had no traffic for too long. -/
def expired (r : Relay) (now : Int) (session : Nat) : Bool :=
  r.touched.getD session 0 < now - Config.relaySessionTTL

/-- `evictExpired`. -/
def evictExpired (r : Relay) (now : Int) : Relay :=
  { r with sessions := r.sessions.filter fun _ session => !r.expired now session }

/-- `Open`. -/
def openSession (r : Relay) (hexID : Bytes) (now : Int) : Except String Unit × Relay :=
  if !validSwapID hexID then
    (.error "swaprelay: bad swap id", r)
  else
    let r := r.evictExpired now
    match r.sessions[hexID]? with
    | some _ => (.ok (), r.touch hexID now)
    | none =>
      if Config.relayMaxSessions ≤ r.sessions.size then
        (.error "swaprelay: too many active swap sessions — try again later", r)
      else
        (.ok (), {
          sessions := r.sessions.insert hexID r.inboxes.queues.length
          touched := r.touched ++ [now]
          inboxes := (r.inboxes.step Config.relayInboxCap .make).1 })

/-- `close`. -/
def close (r : Relay) (hexID : Bytes) : Relay :=
  { r with sessions := r.sessions.erase hexID }

/-- What a call starts on the session it finds. -/
def onSession (r : Relay) (hexID : Bytes) (op : Nat → Op Bytes Msg) : Op Bytes Msg :=
  match r.sessions[hexID]? with
  | none => .idle
  | some session => op session

/-- The handle of a browser taker, `"browser:"` before the text of the swap id. -/
def browserPrefix : Bytes := [98, 114, 111, 119, 115, 101, 114, 58]

/-- `Submit`: the envelope that the coordinator gets, and from whom. -/
def submit (r : Relay) (hexID : Bytes) (kind : UInt8) (payload : Bytes) (now : Int) :
    Except String (Bytes × Envelope) × Relay :=
  if !validSwapID hexID then
    (.error "swaprelay: bad swap id", r)
  else
    match r.sessions[hexID]? with
    | none => (.error "swaprelay: session not open (call open first)", r)
    | some _ =>
      (.ok (browserPrefix ++ hexID, ⟨(hexDecode hexID).getD [], kind, payload⟩),
        r.touch hexID now)

end Relay

/-! ## Interleavings -/

/-- A locked section of a call, or what a call does after it. -/
inductive Action where
  | openSession (hexID : Bytes) (now : Int)
  | submit (hexID : Bytes) (kind : UInt8) (payload : Bytes) (now : Int)
  | close (hexID : Bytes)
  | send (hexID : Bytes) (m : Msg) (now : Int)
  | sendSelect (place : Nat)
  | recv (hexID : Bytes) (now : Int)
  | recvSelect (place : Nat)
  | recvExpire (place : Nat)

namespace Relay

/-- The sessions as an action leaves them; a new session has a new inbox. -/
def sessionStep (r : Relay) : Action → Relay
  | .openSession hexID now => (r.openSession hexID now).2
  | .submit hexID kind payload now => (r.submit hexID kind payload now).2
  | .close hexID => r.close hexID
  | .send hexID _ now => r.touch hexID now
  | .recv hexID now => r.touch hexID now
  | _ => r

/-- What an action does to the inboxes. -/
def inboxOp (r : Relay) : Action → Op Bytes Msg
  | .send hexID m _ => r.onSession hexID fun session => .send session hexID m
  | .recv hexID _ => r.onSession hexID fun session => .await session hexID
  | .sendSelect place => .push place
  | .recvSelect place => .pop place
  | .recvExpire place => .cancel place
  | _ => .idle

/-- The relay and its streams after an action. -/
def step (state : Relay × List (Event Bytes Msg)) (a : Action) :
    Relay × List (Event Bytes Msg) :=
  let r := state.1.sessionStep a
  let out := r.inboxes.step Config.relayInboxCap (state.1.inboxOp a)
  ({ r with inboxes := out.1 }, state.2 ++ out.2.toList)

/-- The relay and its streams after a history of actions. -/
def run (actions : List Action) : Relay × List (Event Bytes Msg) :=
  actions.foldl step ({}, [])

end Relay

/-! ## What every run keeps -/

/-- `label` is the swap of each inbox that was ever made. -/
structure Sound (label : List Bytes) (r : Relay) (events : List (Event Bytes Msg)) : Prop where
  exact : Exact Config.relayInboxCap r.inboxes events
  labelled : Labelled (fun session => label[session]?) r.inboxes events
  made : label.length = r.inboxes.queues.length
  times : r.touched.length = r.inboxes.queues.length
  few : r.sessions.size ≤ Config.relayMaxSessions
  own : ∀ (hexID : Bytes) (session : Nat), r.sessions[hexID]? = some session →
    label[session]? = some hexID

namespace Relay

variable {label : List Bytes} {r : Relay} {events : List (Event Bytes Msg)}

@[simp] theorem touch_sessions (r : Relay) (hexID : Bytes) (now : Int) :
    (r.touch hexID now).sessions = r.sessions := by
  unfold touch
  split <;> rfl

@[simp] theorem touch_inboxes (r : Relay) (hexID : Bytes) (now : Int) :
    (r.touch hexID now).inboxes = r.inboxes := by
  unfold touch
  split <;> rfl

@[simp] theorem length_touch (r : Relay) (hexID : Bytes) (now : Int) :
    (r.touch hexID now).touched.length = r.touched.length := by
  unfold touch
  split <;> simp

theorem evictExpired_lookup (r : Relay) (now : Int) (hexID : Bytes) :
    (r.evictExpired now).sessions[hexID]? =
      (r.sessions[hexID]?).filter fun session => !r.expired now session :=
  Std.ExtTreeMap.getElem?_filter'

theorem evictExpired_some {now : Int} {hexID : Bytes} {session : Nat}
    (kept : (r.evictExpired now).sessions[hexID]? = some session) :
    r.sessions[hexID]? = some session ∧ r.expired now session = false := by
  rw [evictExpired_lookup, Option.filter_eq_some_iff] at kept
  exact ⟨kept.1, by simpa using kept.2⟩

end Relay

namespace Sound

variable {label : List Bytes} {r r' : Relay} {events : List (Event Bytes Msg)}

theorem start : Sound [] {} [] where
  exact := .start
  labelled := ⟨by simp, by simp, by simp⟩
  made := rfl
  times := rfl
  few := by simp [Config.relayMaxSessions]
  own := by simp

/-- Sessions may go away at any time. -/
theorem narrow (sound : Sound label r events)
    (times : r'.touched.length = r.touched.length) (inboxes : r'.inboxes = r.inboxes)
    (few : r'.sessions.size ≤ r.sessions.size)
    (sub : ∀ (hexID : Bytes) (session : Nat), r'.sessions[hexID]? = some session →
      r.sessions[hexID]? = some session) :
    Sound label r' events where
  exact := inboxes ▸ sound.exact
  labelled := inboxes ▸ sound.labelled
  made := inboxes ▸ sound.made
  times := (times.trans sound.times).trans (congrArg (fun s => s.queues.length) inboxes.symm)
  few := few.trans sound.few
  own hexID session found := sound.own hexID session (sub hexID session found)

theorem touch (sound : Sound label r events) (hexID : Bytes) (now : Int) :
    Sound label (r.touch hexID now) events :=
  sound.narrow (r.length_touch hexID now) (r.touch_inboxes hexID now)
    (by rw [Relay.touch_sessions]) fun _ _ found => by rwa [Relay.touch_sessions] at found

theorem evict (sound : Sound label r events) (now : Int) :
    Sound label (r.evictExpired now) events :=
  sound.narrow rfl rfl Std.ExtTreeMap.size_filter_le_size fun _ _ kept =>
    (Relay.evictExpired_some kept).1

theorem close (sound : Sound label r events) (hexID : Bytes) :
    Sound label (r.close hexID) events := by
  refine sound.narrow rfl rfl Std.ExtTreeMap.size_erase_le fun other session found => ?_
  change (r.sessions.erase hexID)[other]? = some session at found
  rw [OrdMap.lookup_erase] at found
  split_ifs at found
  exact found

theorem register (sound : Sound label r events) {hexID : Bytes}
    (room : r.sessions.size < Config.relayMaxSessions) (now : Int) :
    Sound (label ++ [hexID]) {
        sessions := r.sessions.insert hexID r.inboxes.queues.length
        touched := r.touched ++ [now]
        inboxes := (r.inboxes.step Config.relayInboxCap .make).1 } events := by
  have later : ∀ {session : Nat} {text : Bytes}, label[session]? = some text →
      (label ++ [hexID])[session]? = some text := by
    intro session text found
    rw [List.getElem?_append_left (List.getElem?_eq_some_iff.mp found).1, found]
  have size := Std.ExtTreeMap.size_insert_le (t := r.sessions) (k := hexID)
    (v := r.inboxes.queues.length)
  exact {
    exact := sound.exact.make
    labelled := {
      sending := fun call member => later (sound.labelled.sending call member)
      receiving := fun call member => later (sound.labelled.receiving call member)
      events := fun e member => later (sound.labelled.events e member) }
    made := by simp [State.step, sound.made]
    times := by simp [State.step, sound.times]
    few := size.trans room
    own := by
      intro other session found
      rw [OrdMap.lookup_insert] at found
      split_ifs at found with same
      · subst same
        rw [← Option.some.inj found, ← sound.made]
        simp
      · exact later (sound.own other session found) }

theorem openSession (sound : Sound label r events) (hexID : Bytes) (now : Int) :
    ∃ label, Sound label (r.openSession hexID now).2 events := by
  unfold Relay.openSession
  have evicted := sound.evict now
  split_ifs with bad
  · exact ⟨label, sound⟩
  · dsimp only
    cases found : (r.evictExpired now).sessions[hexID]? with
    | some session => exact ⟨label, evicted.touch hexID now⟩
    | none =>
      dsimp only
      split_ifs with full
      · exact ⟨label, evicted⟩
      · exact ⟨label ++ [hexID], evicted.register (Nat.not_le.mp full) now⟩

theorem submit (sound : Sound label r events) (hexID : Bytes) (kind : UInt8) (payload : Bytes)
    (now : Int) : Sound label (r.submit hexID kind payload now).2 events := by
  unfold Relay.submit
  split_ifs with bad
  · exact sound
  · cases found : r.sessions[hexID]? with
    | none => exact sound
    | some session => exact sound.touch hexID now

theorem inboxes (sound : Sound label r events) (op : Op Bytes Msg)
    (own : ∀ call, op.caller? = some call → label[call.1]? = some call.2) (kept : op ≠ .make) :
    Sound label { r with inboxes := (r.inboxes.step Config.relayInboxCap op).1 }
      (events ++ (r.inboxes.step Config.relayInboxCap op).2.toList) where
  exact := sound.exact.step op
  labelled := sound.labelled.step op own
  made := sound.made.trans (length_step _ _ op kept).symm
  times := sound.times.trans (length_step _ _ op kept).symm
  few := sound.few
  own := sound.own

theorem call (sound : Sound label r events) (hexID : Bytes) (now : Int)
    {op : Nat → Op Bytes Msg} (named : ∀ session, (op session).caller? = some (session, hexID)) :
    Sound label { r.touch hexID now with
        inboxes := ((r.touch hexID now).inboxes.step Config.relayInboxCap
          (r.onSession hexID op)).1 }
      (events ++ ((r.touch hexID now).inboxes.step Config.relayInboxCap
        (r.onSession hexID op)).2.toList) := by
  unfold Relay.onSession
  cases found : r.sessions[hexID]? with
  | none => exact (sound.touch hexID now).inboxes .idle (by rintro call ⟨⟩) (by rintro ⟨⟩)
  | some session =>
    refine (sound.touch hexID now).inboxes (op session) ?_ ?_
    · intro call names
      obtain rfl := Option.some.inj ((named session).symm.trans names)
      exact sound.own hexID session found
    · intro same
      have names := named session
      rw [same] at names
      cases names

/-- **Every action** keeps them sound. -/
theorem step {state : Relay × List (Event Bytes Msg)} (sound : Sound label state.1 state.2)
    (a : Action) : ∃ label, Sound label (Relay.step state a).1 (Relay.step state a).2 := by
  cases a with
  | openSession hexID now =>
    obtain ⟨label, opened⟩ := sound.openSession hexID now
    exact ⟨label, opened.inboxes .idle (by rintro call ⟨⟩) (by rintro ⟨⟩)⟩
  | submit hexID kind payload now =>
    exact ⟨label, (sound.submit hexID kind payload now).inboxes .idle (by rintro call ⟨⟩)
      (by rintro ⟨⟩)⟩
  | close hexID =>
    exact ⟨label, (sound.close hexID).inboxes .idle (by rintro call ⟨⟩) (by rintro ⟨⟩)⟩
  | send hexID m now => exact ⟨label, sound.call hexID now fun _ => rfl⟩
  | recv hexID now => exact ⟨label, sound.call hexID now fun _ => rfl⟩
  | sendSelect place =>
    exact ⟨label, sound.inboxes (.push place) (by rintro call ⟨⟩) (by rintro ⟨⟩)⟩
  | recvSelect place =>
    exact ⟨label, sound.inboxes (.pop place) (by rintro call ⟨⟩) (by rintro ⟨⟩)⟩
  | recvExpire place =>
    exact ⟨label, sound.inboxes (.cancel place) (by rintro call ⟨⟩) (by rintro ⟨⟩)⟩

theorem run (actions : List Action) :
    ∃ label, Sound label (Relay.run actions).1 (Relay.run actions).2 := by
  induction actions using List.reverseRecOn with
  | nil => exact ⟨[], start⟩
  | append_singleton actions a ih =>
    obtain ⟨label, sound⟩ := ih
    rw [Relay.run, List.foldl_append]
    exact sound.step a

theorem fresh (sound : Sound label r events) {hexID : Bytes} {now : Int} {session : Nat}
    (found : (r.openSession hexID now).2.sessions[hexID]? = some session) :
    r.sessions[hexID]? = some session ∨ ∀ e ∈ events, e.channel ≠ session := by
  unfold Relay.openSession at found
  split_ifs at found with bad
  · exact .inl found
  · dsimp only at found
    cases kept : (r.evictExpired now).sessions[hexID]? with
    | some other =>
      rw [kept] at found
      dsimp only at found
      rw [Relay.touch_sessions] at found
      exact .inl (Relay.evictExpired_some found).1
    | none =>
      rw [kept] at found
      dsimp only at found
      split_ifs at found with full
      · exact .inl (Relay.evictExpired_some found).1
      · refine .inr fun e member => Nat.ne_of_lt ?_
        dsimp only at found
        rw [OrdMap.lookup_insert, if_pos rfl] at found
        rw [← Option.some.inj found]
        exact sound.exact.eventsMade e member

end Sound

/-- After any interleaving of the calls of any browsers and makers: at most 1024 sessions and 16
queued messages each; of a session, what was received and what is queued is what was accepted,
in order, and each message sent is accepted, refused or in flight; all who call on an inbox are
of one swap; and a session that is opened has an inbox no earlier message reached, unless the
swap had it already. -/
theorem relay_run (actions : List Action) :
    (Relay.run actions).1.sessions.size ≤ 1024 ∧
    (∀ session, ((Relay.run actions).1.inboxes.queue session).length ≤ 16 ∧
      history .accepted session (Relay.run actions).2 =
        history .received session (Relay.run actions).2 ++
          (Relay.run actions).1.inboxes.queue session ∧
      (history .sent session (Relay.run actions).2).Perm
        (history .accepted session (Relay.run actions).2 ++
          history .refused session (Relay.run actions).2 ++
          pending session (Relay.run actions).1.inboxes.sending)) ∧
    (∀ e ∈ (Relay.run actions).2, ∀ e' ∈ (Relay.run actions).2,
      e.channel = e'.channel → e.caller = e'.caller) ∧
    ∀ (hexID : Bytes) (now : Int) (session : Nat),
      ((Relay.run actions).1.openSession hexID now).2.sessions[hexID]? = some session →
      (Relay.run actions).1.sessions[hexID]? = some session ∨
        ∀ e ∈ (Relay.run actions).2, e.channel ≠ session := by
  obtain ⟨label, sound⟩ := Sound.run actions
  refine ⟨sound.few, fun session => ⟨sound.exact.bounded session, sound.exact.ordered session,
    sound.exact.settled session⟩, fun e member e' member' same => ?_, fun _ _ _ => sound.fresh⟩
  have own := sound.labelled.events e member
  rw [same, sound.labelled.events e' member'] at own
  exact (Option.some.inj own).symm

/-! ## Idle sessions -/

/-- The clock reading of an action. -/
def Action.time : Action → Option Int
  | .openSession _ now => some now
  | .submit _ _ _ now => some now
  | .send _ _ now => some now
  | .recv _ now => some now
  | _ => none

/-- A session of a swap that was used at a time or later. -/
structure Live (r : Relay) (hexID : Bytes) (session : Nat) (since : Int) : Prop where
  found : r.sessions[hexID]? = some session
  inside : session < r.touched.length
  used : since ≤ r.touched.getD session 0

namespace Live

variable {r : Relay} {hexID : Bytes} {session : Nat} {since : Int}

theorem touch (live : Live r hexID session since) (other : Bytes) {now : Int}
    (later : since ≤ now) : Live (r.touch other now) hexID session since where
  found := by rw [Relay.touch_sessions, live.found]
  inside := by rw [Relay.length_touch]; exact live.inside
  used := by
    unfold Relay.touch
    cases r.sessions[other]? with
    | none => exact live.used
    | some touched =>
      dsimp only
      rw [List.getD_eq_getElem?_getD, List.getElem?_set]
      split_ifs with same inside
      · exact later
      · exact absurd (same ▸ live.inside) inside
      · rw [← List.getD_eq_getElem?_getD]
        exact live.used

theorem evict (live : Live r hexID session since) {now : Int}
    (early : now ≤ since + Config.relaySessionTTL) :
    Live (r.evictExpired now) hexID session since where
  found := by
    have used := live.used
    rw [Relay.evictExpired_lookup, live.found, Option.filter_some, if_pos]
    simp only [Relay.expired, Bool.not_eq_eq_eq_not, Bool.not_true, decide_eq_false_iff_not]
    omega
  inside := live.inside
  used := live.used

/-- Opening another session keeps it live. -/
theorem openSession (live : Live r hexID session since) (other : Bytes) {now : Int}
    (later : since ≤ now) (early : now ≤ since + Config.relaySessionTTL) :
    Live (r.openSession other now).2 hexID session since := by
  have kept := live.evict early
  unfold Relay.openSession
  split_ifs with bad
  · exact live
  · dsimp only
    cases found : (r.evictExpired now).sessions[other]? with
    | some held => exact kept.touch other later
    | none =>
      dsimp only
      split_ifs with full
      · exact kept
      · constructor
        · dsimp only
          rw [OrdMap.lookup_insert]
          split_ifs with same
          · rw [same, kept.found] at found
            cases found
          · exact kept.found
        · rw [List.length_append]
          exact Nat.lt_add_right _ kept.inside
        · dsimp only
          rw [List.getD_append _ _ _ _ kept.inside]
          exact kept.used

/-- Any other action within the time keeps it live. -/
theorem sessionStep (live : Live r hexID session since) {a : Action} (other : a ≠ .close hexID)
    (window : ∀ now, a.time = some now → since ≤ now ∧ now ≤ since + Config.relaySessionTTL) :
    Live (r.sessionStep a) hexID session since := by
  cases a with
  | openSession text now =>
    exact live.openSession text (window now rfl).1 (window now rfl).2
  | submit text kind payload now =>
    unfold Relay.sessionStep Relay.submit
    dsimp only
    split_ifs with bad
    · exact live
    · cases r.sessions[text]? with
      | none => exact live
      | some held => exact live.touch text (window now rfl).1
  | close text =>
    refine ⟨?_, live.inside, live.used⟩
    change (r.sessions.erase text)[hexID]? = some session
    rw [OrdMap.lookup_erase, if_neg fun same => other (congrArg Action.close same), live.found]
  | send text m now => exact live.touch text (window now rfl).1
  | recv text now => exact live.touch text (window now rfl).1
  | sendSelect place => exact live
  | recvSelect place => exact live
  | recvExpire place => exact live

end Live

/-- Whatever others do, and however many sessions are open, a session used at `since` is kept
until it is closed under its own text or fifteen minutes have passed. -/
theorem session_kept (before actions : List Action) {hexID : Bytes} {session : Nat} {since : Int}
    (found : (Relay.run before).1.sessions[hexID]? = some session)
    (used : since ≤ (Relay.run before).1.touched.getD session 0)
    (window : ∀ a ∈ actions, ∀ now, a.time = some now →
      since ≤ now ∧ now ≤ since + Config.relaySessionTTL)
    (unclosed : ∀ a ∈ actions, a ≠ .close hexID) :
    (Relay.run (before ++ actions)).1.sessions[hexID]? = some session := by
  suffices live : Live (Relay.run (before ++ actions)).1 hexID session since from live.found
  induction actions using List.reverseRecOn with
  | nil =>
    rw [List.append_nil]
    obtain ⟨label, sound⟩ := Sound.run before
    obtain ⟨inside, -⟩ := List.getElem?_eq_some_iff.mp (sound.own hexID session found)
    exact ⟨found, by rw [sound.times, ← sound.made]; exact inside, used⟩
  | append_singleton actions a ih =>
    have live := ih (fun a member => window a (List.mem_append_left _ member))
      fun a member => unclosed a (List.mem_append_left _ member)
    have member : a ∈ actions ++ [a] := List.mem_append_right _ (List.mem_singleton.mpr rfl)
    rw [← List.append_assoc, Relay.run, List.foldl_append]
    exact { live.sessionStep (unclosed a member) (window a member) with }

/-- Opened by one browser, and another swap's by another a quarter of an hour later. -/
theorem session_kept_quarter :
    (Relay.run ([.openSession (List.replicate 64 48) 0] ++
      [.openSession (List.replicate 64 49) 900])).1.sessions[
        (List.replicate 64 48 : Bytes)]? = some 0 := by
  refine session_kept _ _ (by decide +kernel)
    (show (0 : Int) ≤ _ by decide +kernel) ?_ ?_
  · intro a member now timed
    obtain rfl := List.mem_singleton.mp member
    obtain rfl := Option.some.inj timed
    decide
  · intro a member
    obtain rfl := List.mem_singleton.mp member
    rintro ⟨⟩

/-! ## The handle that the maker answers to -/

theorem hexNibble_ne_colon {digit value : UInt8} (decoded : hexNibble digit = some value) :
    digit ≠ 58 := by
  rintro rfl
  cases decoded

/-- What decodes has no colon. -/
theorem hexDecode_no_colon {hexID id : Bytes} (decoded : hexDecode hexID = some id) :
    (58 : UInt8) ∉ hexID := by
  induction hexID using hexDecode.induct generalizing id with
  | case1 => exact List.not_mem_nil
  | case2 digit => cases decoded
  | case3 high low rest ih =>
    unfold hexDecode at decoded
    obtain ⟨upper, first, decoded⟩ := Option.bind_eq_some_iff.mp decoded
    obtain ⟨lower, second, decoded⟩ := Option.bind_eq_some_iff.mp decoded
    obtain ⟨others, third, -⟩ := Option.bind_eq_some_iff.mp decoded
    simp only [List.mem_cons, not_or]
    exact ⟨(hexNibble_ne_colon first).symm, (hexNibble_ne_colon second).symm, ih third⟩

theorem hostPart_browser {hexID : Bytes} (valid : validSwapID hexID = true) :
    hostPart (Relay.browserPrefix ++ hexID) = Relay.browserPrefix.dropLast := by
  have decoded : (hexDecode hexID).isSome = true := by
    unfold validSwapID at valid
    exact (of_decide_eq_true valid).2
  obtain ⟨id, decoded⟩ := Option.isSome_iff_exists.mp decoded
  have plain : ∀ digit ∈ hexID.reverse, (decide (digit ≠ 58)) = true := by
    intro digit member
    refine decide_eq_true ?_
    rintro rfl
    exact hexDecode_no_colon decoded (List.mem_reverse.mp member)
  unfold hostPart
  rw [if_pos (List.mem_append_left _ (by decide)), List.reverse_append,
    List.dropWhile_append_of_pos plain]
  rfl

/-- Two digits make a byte. -/
theorem length_hexDecode {hexID id : Bytes} (decoded : hexDecode hexID = some id) :
    2 * id.length = hexID.length := by
  induction hexID using hexDecode.induct generalizing id with
  | case1 =>
    obtain rfl := Option.some.inj decoded
    rfl
  | case2 digit => cases decoded
  | case3 high low rest ih =>
    unfold hexDecode at decoded
    obtain ⟨upper, -, decoded⟩ := Option.bind_eq_some_iff.mp decoded
    obtain ⟨lower, -, decoded⟩ := Option.bind_eq_some_iff.mp decoded
    obtain ⟨others, third, decoded⟩ := Option.bind_eq_some_iff.mp decoded
    obtain rfl := Option.some.inj decoded
    have shorter := ih third
    rw [List.length_cons, List.length_cons, List.length_cons]
    omega

/-- What an accepted submission says. -/
theorem Relay.submit_ok {r : Relay} {hexID payload peer : Bytes} {kind : UInt8} {now : Int}
    {env : Envelope} (accepted : (r.submit hexID kind payload now).1 = .ok (peer, env)) :
    validSwapID hexID = true ∧ peer = Relay.browserPrefix ++ hexID ∧ env.swapID.length = 32 ∧
      env.payload = payload := by
  unfold Relay.submit at accepted
  split_ifs at accepted with bad
  have valid : validSwapID hexID = true := by simpa using bad
  cases found : r.sessions[hexID]? with
  | none =>
    rw [found] at accepted
    cases accepted
  | some session =>
    rw [found] at accepted
    obtain ⟨rfl, rfl⟩ := Prod.mk.inj (Except.ok.inj accepted)
    refine ⟨valid, rfl, ?_, rfl⟩
    unfold validSwapID at valid
    obtain ⟨digits, decodes⟩ := of_decide_eq_true valid
    obtain ⟨id, decoded⟩ := Option.isSome_iff_exists.mp decodes
    have width := length_hexDecode decoded
    dsimp only
    rw [decoded, Option.getD_some]
    omega

/-- A payload that fits is routed to its swap: a maker session that answers to any browser
answers from then on to the one that submitted, under whatever spelling of the id. A larger one
is dropped although the call succeeds. -/
theorem submit_rebinds (makes : Bool) (accepts : Bytes → Bool) (c : Coordinator) {r : Relay}
    {hexID payload peer : Bytes} {kind : UInt8} {now : Int} {env : Envelope}
    (accepted : (r.submit hexID kind payload now).1 = .ok (peer, env)) :
    (2 ^ 16 < payload.length →
      c.deliver makes accepts peer env.serialize = c) ∧
    (payload.length ≤ 2 ^ 16 → ∀ (s : Session) (text : Bytes),
      c.sessions[env.swapID]? = some s → s.peer = Relay.browserPrefix ++ text →
      validSwapID text = true →
      (c.deliver makes accepts peer env.serialize).sessions[env.swapID]? =
        some { s with peer := Relay.browserPrefix ++ hexID }) := by
  obtain ⟨valid, rfl, width, rfl⟩ := Relay.submit_ok accepted
  constructor
  · intro large
    unfold Coordinator.deliver
    cases parsed : parseEnvelope env.serialize with
    | none => rfl
    | some other =>
      obtain ⟨otherWidth, small, same⟩ := parseEnvelope_iff.mp parsed
      have lengths := congrArg List.length same
      simp only [Envelope.serialize, List.length_append, List.length_singleton,
        length_bigEndian, width, otherWidth] at lengths
      omega
  · intro small s text registered bound validText
    have hosts : sameHost (Relay.browserPrefix ++ hexID) s.peer = true := by
      rw [sameHost, bound, hostPart_browser valid, hostPart_browser validText, beq_self_eq_true]
    unfold Coordinator.deliver
    rw [parseEnvelope_iff.mpr ⟨width, small, rfl⟩]
    dsimp only
    rw [registered]
    dsimp only
    split_ifs with moved
    · rw [Coordinator.setPeer, registered]
      exact Std.ExtTreeMap.getElem?_insert_self
    · have own : s.peer = Relay.browserPrefix ++ hexID := by
        by_contra other
        exact moved ⟨Ne.symm other, hosts⟩
      rw [registered, ← own]

/-- The upper case spelling of the id takes the maker's answers from the lower case one. -/
theorem submit_rebinds_upper :
    let c : Coordinator := ⟨(∅ : GoMap Session).insert (List.replicate 32 170)
      ⟨List.replicate 32 170, .maker, Relay.browserPrefix ++ List.replicate 64 97⟩⟩
    (c.deliver true (fun _ => true) (Relay.browserPrefix ++ List.replicate 64 65)
      (Envelope.serialize ⟨List.replicate 32 170, 3, []⟩)).sessions[
        (List.replicate 32 170 : Bytes)]? =
      some ⟨List.replicate 32 170, .maker, Relay.browserPrefix ++ List.replicate 64 65⟩ := by
  intro c
  refine (submit_rebinds true (fun _ => true) c
    (show ((Relay.run [.openSession (List.replicate 64 65) 0]).1.submit (List.replicate 64 65) 3 []
      1).1 = .ok (Relay.browserPrefix ++ List.replicate 64 65, ⟨List.replicate 32 170, 3, []⟩)
      from ?_)).2 (by decide) ⟨List.replicate 32 170, .maker,
        Relay.browserPrefix ++ List.replicate 64 97⟩ (List.replicate 64 97) ?_ rfl
      (by decide +kernel)
  · have found : (Relay.run [.openSession (List.replicate 64 65) 0]).1.sessions[
        (List.replicate 64 65 : Bytes)]? = some 0 := by decide +kernel
    have decoded : (hexDecode (List.replicate 64 65)).getD [] = List.replicate 32 170 := by
      decide +kernel
    rw [Relay.submit, if_neg (by decide +kernel), found, decoded]
  · exact Std.ExtTreeMap.getElem?_insert_self

end Swaprelay

end Obscura
