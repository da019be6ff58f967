import Obscura.Swap.Messages
import Obscura.Swapbook.NoOversell
import Obscura.Swapnet.Coordinator

/-! # The maker's reservations

An Init that asks for one of the maker's own offers is let in by a gate that reserves the
liquidity in the order book and files the reservation under the swap id of the Init's payload.
The session is registered under the swap id of the envelope; when its driver returns, the
reservation filed under that id is committed or released. Each of these steps takes its own
lock, so the calls of several peers interleave between any two of them.
-/

namespace Obscura.Swapnet

open Wire Swapbook
open Swap.Messages (Init parseInit)

/-! ## The gate -/

/-- The asset of this chain. -/
def obx : Bytes := ascii "OBX"

/-- The asset of the other chain. -/
def xno : Bytes := ascii "XNO"

/-- `xnoOfferUnitsToRaw`. -/
def xnoOfferUnitsToRaw (offerUnits : UInt64) : Nat := offerUnits.toNat * 10 ^ 18

/-- Rounded down; zero when the units do not fit. -/
def xnoRawToOfferUnits (raw : Nat) : UInt64 :=
  let units := raw / 10 ^ 18
  if units < 2 ^ 64 then UInt64.ofNat units else 0

/-- The legs of an offer in settlement units; the book counts OBX in atomic units. -/
def offerLegAmounts (o : Offer) : UInt64 × Nat := (o.giveAmount, xnoOfferUnitsToRaw o.getAmount)

/-- `makerOffers`: what a maker has on the book. -/
def makerOffers (b : Book) (now : Int) (maker : Bytes) : List Offer :=
  if maker.length ≠ 32 then []
  else ((b.pruneLocked now).offers.toList.map Prod.snd).filter fun o =>
    o.maker.length = 32 ∧ o.maker = maker

/-- An Init within an offer's OBX leg, at its rate or a better one for the maker. -/
def fillsOffer (init : Init) (o : Offer) : Bool :=
  let (obxAtomic, xnoRaw) := offerLegAmounts o
  o.giveAsset = obx && o.getAsset = xno && init.obxAmount ≤ obxAtomic &&
    init.obxAmount.toNat * xnoRaw ≤ obxAtomic.toNat * init.xnoAmount

/-- The offer at which the scan of `acceptInitForOwnOffers` stops with a yes; the scan is over a
map, so any such offer can be the one. -/
def AcceptedFor (b : Book) (now : Int) (makerPub : Bytes) (init : Init) (o : Offer) : Prop :=
  init.obxAmount ≠ 0 ∧ 0 < init.xnoAmount ∧ o ∈ makerOffers b now makerPub ∧
    fillsOffer init o = true

instance (b : Book) (now : Int) (makerPub : Bytes) (init : Init) (o : Offer) :
    Decidable (AcceptedFor b now makerPub init o) :=
  inferInstanceAs (Decidable (_ ∧ _ ∧ _ ∧ _))

/-! ## The maker -/

/-- How far a `startMaker` call and its session have come. -/
inductive Stage where
  /-- The Init matches an own offer. -/
  | matched
  /-- The book has reserved liquidity. -/
  | holding
  /-- The reservation is filed. -/
  | recorded
  /-- The session is registered and its driver runs. -/
  | running
  /-- The driver has settled with the book. -/
  | closing (success : Bool)
  /-- The session is unregistered. -/
  | over (success : Bool)
  /-- The call returned without a session. -/
  | refused
deriving DecidableEq

/-- A call of `startMaker`, with the envelope's swap id, the offer its Init was accepted for and
the reservation it took. -/
structure Call where
  id : Bytes
  peer : Bytes
  init : Init
  offer : Offer
  res : List Reservation := []
  stage : Stage := .matched

/-- A filed reservation and the call that took it. -/
structure Held where
  number : Nat
  res : List Reservation

/-- A reservation that was released or committed, by the call with the number `settler`. -/
structure Settlement where
  number : Nat
  settler : Nat
  committed : Bool
deriving DecidableEq

/-- A maker: the session registry, the order book with what it handed out, the reconciler's
map and the calls so far. The reservations of other callers of the book are `others`. -/
structure Maker where
  registry : Coordinator := {}
  log : Log := {}
  others : Multiset Reservation := 0
  reserved : GoMap Held := ∅
  calls : OrdMap Nat Call := ∅
  next : Nat := 0
  settled : List Settlement := []

/-- What happens to a maker that serves many calls at once. -/
inductive Event where
  /-- An Init opens a call; `o` is the offer the gate stops at. -/
  | receive (now : Int) (fromPeer raw : Bytes) (o : Offer)
  | reserve (n : Nat) (now now' : Int)
  | record (n : Nat)
  | enroll (n : Nat)
  | done (n : Nat) (now : Int) (success : Bool) (swapKey : String)
  | unregister (n : Nat)
  /-- A reconnect, a taker session or its end. -/
  | registry (event : Coordinator.Event)
  /-- A call of another user of the book. -/
  | book (op : Op)

namespace Maker

variable (V : Primitives) (makerPub : Bytes)

/-- The call with a number, if it has come as far as a stage. -/
def callAt (m : Maker) (n : Nat) (stage : Stage) : Option Call :=
  m.calls[n]?.filter fun call => call.stage = stage

/-- A call, moved on. -/
def setCall (m : Maker) (n : Nat) (call : Call) : Maker :=
  { m with calls := m.calls.insert n call }

/-- `releaseReservation`: what a call held goes back to the book. -/
def releaseReservation (m : Maker) (held : Held) (settler : Nat) : Maker :=
  { m with
    log := { m.log with
      book := m.log.book.releaseReservation held.res
      live := m.log.live - held.res }
    settled := m.settled ++ [⟨held.number, settler, false⟩] }

/-- `commitTrade`: what a call held is filled. -/
def commitTrade (m : Maker) (now : Int) (held : Held) (swapKey : String) (settler : Nat) : Maker :=
  { m with
    log :=
      { book := (m.log.book.commitTrade now held.res obx xno swapKey "").2
        live := m.log.live - held.res
        committed := held.res + m.log.committed }
    settled := m.settled ++ [⟨held.number, settler, true⟩] }

/-- `makerDone` for the session of a call. -/
def makerDone (m : Maker) (now : Int) (settler : Nat) (swapID : Bytes) (swapKey : String)
    (success : Bool) : Maker :=
  match m.reserved[swapID]? with
  | none => m
  | some held =>
    let m := { m with reserved := m.reserved.erase swapID }
    if held.res = [] then m
    else if success then m.commitTrade now held swapKey settler
    else m.releaseReservation held settler

/-- `Deliver` and the first half of the gate, for an Init that matches an own offer. -/
def receive (m : Maker) (now : Int) (fromPeer raw : Bytes) (o : Offer) : Option Maker := do
  let env ← parseEnvelope raw
  guard (env.kind = kindInit ∧ m.registry.sessions[env.swapID]?.isNone)
  let init ← (parseInit env.payload).toOption
  guard (AcceptedFor m.log.book now makerPub init o ∧ xnoRawToOfferUnits init.xnoAmount ≠ 0)
  return { m with
    log := { m.log with book := m.log.book.pruneLocked now }
    calls := m.calls.insert m.next { id := env.swapID, peer := fromPeer, init, offer := o }
    next := m.next + 1 }

/-- The gate reserves liquidity for the Init. -/
def reserve (m : Maker) (n : Nat) (now now' : Int) : Option Maker := do
  let call ← m.callAt n .matched
  match m.log.book.reserve V now now' xno obx (xnoRawToOfferUnits call.init.xnoAmount) {} with
  | (.error _, book) =>
    return { m with log := { m.log with book } }.setCall n { call with stage := .refused }
  | (.ok (res, _, _), book) =>
    return { m with log := { m.log with book, live := res + m.log.live } }.setCall n
      { call with res, stage := .holding }

/-- The gate files the reservation, or gives it back when the id has one already. -/
def record (m : Maker) (n : Nat) : Option Maker := do
  let call ← m.callAt n .holding
  if m.reserved[call.init.swapID]?.isSome then
    return (m.releaseReservation ⟨n, call.res⟩ n).setCall n { call with stage := .refused }
  else
    return { m with reserved := m.reserved.insert call.init.swapID ⟨n, call.res⟩ }.setCall n
      { call with stage := .recorded }

/-- `startMaker` registers the session; when that fails it returns. -/
def enroll (m : Maker) (n : Nat) : Option Maker := do
  let call ← m.callAt n .recorded
  match m.registry.register ⟨call.id, .maker, call.peer⟩ with
  | .ok registry => return { m with registry }.setCall n { call with stage := .running }
  | .error _ => return m.setCall n { call with stage := .refused }

/-- The driver returns; it succeeds only on an Init with the session's id. -/
def done (m : Maker) (n : Nat) (now : Int) (success : Bool) (swapKey : String) :
    Option Maker := do
  let call ← m.callAt n .running
  guard (success = true → call.init.swapID = call.id)
  return (m.makerDone now n call.id swapKey success).setCall n
    { call with stage := .closing success }

/-- A call ends, and what it still holds goes back. -/
def unregister (m : Maker) (n : Nat) : Option Maker := do
  let call ← m.calls[n]?
  match call.stage with
  | .closing success =>
    return { m with registry := m.registry.unregister call.id }.setCall n
      { call with stage := .over success }
  | _ => none

/-- What else changes the registry: no maker session is opened or ended. -/
def registryStep (m : Maker) (event : Coordinator.Event) : Option Maker :=
  let next := some { m with registry := m.registry.step event }
  match event with
  | .deliver makes _ _ _ => if makes then none else next
  | .take _ _ => next
  | .resolve _ _ => next
  | .finish id => if (m.registry.sessions[id]?.map Session.role) = some .taker then next else none

/-- A call of another user of the book, who settles only what it reserved. -/
def bookStep (m : Maker) (op : Op) : Option Maker :=
  match op with
  | .reserve now now' giveAsset getAsset size opts =>
    match m.log.book.reserve V now now' giveAsset getAsset size opts with
    | (.error _, book) => some { m with log := { m.log with book } }
    | (.ok (res, _, _), book) =>
      some { m with
        log := { m.log with book, live := res + m.log.live }
        others := res + m.others }
  | .release res | .commit _ res _ _ _ _ =>
    if (res : Multiset Reservation) ≤ m.others then
      (m.log.step V op).map fun log => { m with log, others := m.others - res }
    else
      none
  | _ => (m.log.step V op).map fun log => { m with log }

/-- The maker after an event; none where the event cannot happen. -/
def step (m : Maker) : Event → Option Maker
  | .receive now fromPeer raw o => m.receive makerPub now fromPeer raw o
  | .reserve n now now' => m.reserve V n now now'
  | .record n => m.record n
  | .enroll n => m.enroll n
  | .done n now success swapKey => m.done n now success swapKey
  | .unregister n => m.unregister n
  | .registry event => m.registryStep event
  | .book op => m.bookStep V op

/-- The maker after a history of events. -/
def run (m : Maker) : List Event → Option Maker
  | [] => some m
  | event :: events => (m.step V makerPub event).bind fun m => run m events

/-- A condition on the events of a run, each in the state it meets. -/
def Along (condition : Maker → Event → Prop) (m : Maker) : List Event → Prop
  | [] => True
  | event :: events => condition m event ∧
      ∀ m' ∈ m.step V makerPub event, Along condition m' events

instance decideAlong {condition : Maker → Event → Prop}
    [∀ m event, Decidable (condition m event)] :
    ∀ (m : Maker) (events : List Event), Decidable (m.Along V makerPub condition events)
  | _, [] => inferInstanceAs (Decidable True)
  | m, event :: events =>
    have (m' : Maker) : Decidable (m'.Along V makerPub condition events) := decideAlong m' events
    inferInstanceAs (Decidable (condition m event ∧
      ∀ m' ∈ m.step V makerPub event, Along V makerPub condition m' events))

end Maker

namespace Maker

variable {V : Primitives} {makerPub : Bytes} {m m' : Maker}

/-! ## What a step does to the calls -/

theorem callAt_some {n : Nat} {stage : Stage} {call : Call} :
    m.callAt n stage = some call ↔ m.calls[n]? = some call ∧ call.stage = stage := by
  rw [callAt, Option.filter_eq_some_iff, decide_eq_true_iff]

theorem lookup_setCall (m : Maker) (n n' : Nat) (call : Call) :
    (m.setCall n call).calls[n']? = if n = n' then some call else m.calls[n']? :=
  OrdMap.lookup_insert m.calls n n' call

/-- What a message that opens a call says. -/
theorem receive_some {now : Int} {fromPeer raw : Bytes} {o : Offer}
    (opened : m.receive makerPub now fromPeer raw o = some m') :
    ∃ env init, parseEnvelope raw = some env ∧ (parseInit env.payload).toOption = some init ∧
      AcceptedFor m.log.book now makerPub init o ∧ xnoRawToOfferUnits init.xnoAmount ≠ 0 ∧
      m' = { m with
        log := { m.log with book := m.log.book.pruneLocked now }
        calls := m.calls.insert m.next { id := env.swapID, peer := fromPeer, init, offer := o }
        next := m.next + 1 } := by
  unfold receive at opened
  simp only [Option.bind_eq_bind, Option.bind_eq_some_iff] at opened
  obtain ⟨env, parsed, -, -, init, read, _, accepted, same⟩ := opened
  have passes : AcceptedFor m.log.book now makerPub init o ∧
      xnoRawToOfferUnits init.xnoAmount ≠ 0 := by
    by_contra refused
    rw [guard, if_neg refused] at accepted
    exact nomatch accepted
  exact ⟨env, init, parsed, read, passes.1, passes.2, (Option.some.inj same).symm⟩

/-- What a reservation does. -/
theorem reserve_some {n : Nat} {now now' : Int} (stepped : m.reserve V n now now' = some m') :
    ∃ call, m.calls[n]? = some call ∧ call.stage = .matched ∧
      ((∃ error book, m.log.book.reserve V now now' xno obx
          (xnoRawToOfferUnits call.init.xnoAmount) {} = (.error error, book) ∧
        m' = { m with log := { m.log with book } }.setCall n { call with stage := .refused }) ∨
      ∃ res getOut giveIn book, m.log.book.reserve V now now' xno obx
          (xnoRawToOfferUnits call.init.xnoAmount) {} = (.ok (res, getOut, giveIn), book) ∧
        m' = { m with log := { m.log with book, live := res + m.log.live } }.setCall n
          { call with res, stage := .holding }) := by
  obtain ⟨call, found, stepped⟩ := Option.bind_eq_some_iff.mp stepped
  obtain ⟨found, stage⟩ := callAt_some.mp found
  refine ⟨call, found, stage, ?_⟩
  split at stepped
  · next error book outcome =>
      exact Or.inl ⟨error, book, outcome, (Option.some.inj stepped).symm⟩
  · next res getOut giveIn book outcome =>
      exact Or.inr ⟨res, getOut, giveIn, book, outcome, (Option.some.inj stepped).symm⟩

/-- What a record does. -/
theorem record_some {n : Nat} (stepped : m.record n = some m') :
    ∃ call, m.calls[n]? = some call ∧ call.stage = .holding ∧
      (((m.reserved[call.init.swapID]?).isSome ∧
        m' = (m.releaseReservation ⟨n, call.res⟩ n).setCall n { call with stage := .refused }) ∨
      (m.reserved[call.init.swapID]? = none ∧
        m' = { m with reserved := m.reserved.insert call.init.swapID ⟨n, call.res⟩ }.setCall n
          { call with stage := .recorded })) := by
  obtain ⟨call, found, stepped⟩ := Option.bind_eq_some_iff.mp stepped
  obtain ⟨found, stage⟩ := callAt_some.mp found
  refine ⟨call, found, stage, ?_⟩
  split_ifs at stepped with taken
  · exact Or.inl ⟨taken, (Option.some.inj stepped).symm⟩
  · exact Or.inr ⟨by simpa using taken, (Option.some.inj stepped).symm⟩

/-- What an enrolment does. -/
theorem enroll_some {n : Nat} (stepped : m.enroll n = some m') :
    ∃ call, m.calls[n]? = some call ∧ call.stage = .recorded ∧
      ((∃ registry, m.registry.register ⟨call.id, .maker, call.peer⟩ = .ok registry ∧
        m' = { m with registry }.setCall n { call with stage := .running }) ∨
      (∃ error, m.registry.register ⟨call.id, .maker, call.peer⟩ = .error error ∧
        m' = m.setCall n { call with stage := .refused })) := by
  obtain ⟨call, found, stepped⟩ := Option.bind_eq_some_iff.mp stepped
  obtain ⟨found, stage⟩ := callAt_some.mp found
  refine ⟨call, found, stage, ?_⟩
  split at stepped
  · next registry accepted =>
      exact Or.inl ⟨registry, accepted, (Option.some.inj stepped).symm⟩
  · next error refused =>
      exact Or.inr ⟨error, refused, (Option.some.inj stepped).symm⟩

/-- What the end of a run does. -/
theorem done_some {n : Nat} {now : Int} {success : Bool} {swapKey : String}
    (stepped : m.done n now success swapKey = some m') :
    ∃ call, m.calls[n]? = some call ∧ call.stage = .running ∧
      m' = (m.makerDone now n call.id swapKey success).setCall n
        { call with stage := .closing success } := by
  obtain ⟨call, found, stepped⟩ := Option.bind_eq_some_iff.mp stepped
  obtain ⟨found, stage⟩ := callAt_some.mp found
  obtain ⟨-, -, stepped⟩ := Option.bind_eq_some_iff.mp stepped
  exact ⟨call, found, stage, (Option.some.inj stepped).symm⟩

/-- What the end of a call does. -/
theorem unregister_some {n : Nat} (stepped : m.unregister n = some m') :
    ∃ call success, m.calls[n]? = some call ∧ call.stage = .closing success ∧
      m' = { m with registry := m.registry.unregister call.id }.setCall n
        { call with stage := .over success } := by
  obtain ⟨call, found, stepped⟩ := Option.bind_eq_some_iff.mp stepped
  split at stepped
  · next success stage =>
      exact ⟨call, success, found, stage, (Option.some.inj stepped).symm⟩
  · exact nomatch stepped

theorem registryStep_some {event : Coordinator.Event}
    (stepped : m.registryStep event = some m') :
    m' = { m with registry := m.registry.step event } := by
  unfold registryStep at stepped
  cases event with
  | deliver makes accepts fromPeer raw =>
    dsimp only at stepped
    split_ifs at stepped
    exact (Option.some.inj stepped).symm
  | take peer minted => exact (Option.some.inj stepped).symm
  | resolve id live => exact (Option.some.inj stepped).symm
  | finish id =>
    dsimp only at stepped
    split_ifs at stepped
    exact (Option.some.inj stepped).symm

theorem bookStep_some {op : Op} (stepped : m.bookStep V op = some m') :
    ∃ log others, m.log.step V op = some log ∧ m' = { m with log, others } ∧
      (∀ mine, mine + m.others ≤ m.log.live → mine + others ≤ log.live) ∧
      m.log.committed ≤ log.committed := by
  have settles : ∀ res : List Reservation, (res : Multiset Reservation) ≤ m.others →
      ∀ mine, mine + m.others ≤ m.log.live →
        mine + (m.others - res) ≤ m.log.live - res := by
    intro res within mine shares
    refine le_tsub_of_add_le_right ?_
    rwa [add_assoc, tsub_add_cancel_of_le within]
  unfold bookStep at stepped
  cases op with
  | reserve now now' giveAsset getAsset size opts =>
    dsimp only at stepped
    simp only [Log.step]
    generalize m.log.book.reserve V now now' giveAsset getAsset size opts = outcome at stepped ⊢
    rcases outcome with ⟨error | ⟨res, getOut, giveIn⟩, book⟩
    · exact ⟨_, m.others, rfl, (Option.some.inj stepped).symm, fun mine shares => shares,
        le_rfl⟩
    · refine ⟨_, (res : Multiset Reservation) + m.others, rfl, (Option.some.inj stepped).symm,
        fun mine shares => ?_, le_rfl⟩
      rw [add_left_comm]
      exact add_le_add_right shares _
  | release res =>
    dsimp only at stepped
    split_ifs at stepped with within
    obtain ⟨log, next, rfl⟩ := Option.map_eq_some_iff.mp stepped
    simp only [Log.step] at next
    split_ifs at next with live
    refine ⟨log, _, by simp only [Log.step, if_pos live, next], rfl, ?_⟩
    rw [← Option.some.inj next]
    exact ⟨settles res within, le_rfl⟩
  | commit now res giveAsset getAsset swapKey takerPub =>
    dsimp only at stepped
    split_ifs at stepped with within
    obtain ⟨log, next, rfl⟩ := Option.map_eq_some_iff.mp stepped
    simp only [Log.step] at next
    split_ifs at next with live
    refine ⟨log, _, by simp only [Log.step, if_pos live, next], rfl, ?_⟩
    rw [← Option.some.inj next]
    exact ⟨settles res within, Multiset.le_add_left _ _⟩
  | add verifyNow now o postOnly =>
    obtain ⟨log, next, rfl⟩ := Option.map_eq_some_iff.mp stepped
    exact ⟨log, m.others, next, rfl, fun mine shares => Option.some.inj next ▸ shares,
      Option.some.inj next ▸ le_rfl⟩
  | cancel now offerID sig =>
    obtain ⟨log, next, rfl⟩ := Option.map_eq_some_iff.mp stepped
    exact ⟨log, m.others, next, rfl, fun mine shares => Option.some.inj next ▸ shares,
      Option.some.inj next ▸ le_rfl⟩
  | prune now =>
    obtain ⟨log, next, rfl⟩ := Option.map_eq_some_iff.mp stepped
    exact ⟨log, m.others, next, rfl, fun mine shares => Option.some.inj next ▸ shares,
      Option.some.inj next ▸ le_rfl⟩
  | offerFill now id =>
    obtain ⟨log, next, rfl⟩ := Option.map_eq_some_iff.mp stepped
    exact ⟨log, m.others, next, rfl, fun mine shares => Option.some.inj next ▸ shares,
      Option.some.inj next ▸ le_rfl⟩

end Maker

/-! ## Reservations under their sessions' keys -/

namespace Stage

/-- A reservation has been taken and is still to be settled. -/
def pending : Stage → Bool
  | .holding | .recorded | .running => true
  | _ => false

/-- The reservation is filed under the call's key. -/
def filed : Stage → Bool
  | .recorded | .running => true
  | _ => false

theorem pending_of_filed {stage : Stage} (filed : stage.filed = true) : stage.pending = true := by
  cases stage with
  | recorded => rfl
  | running => rfl
  | _ => exact nomatch filed

end Stage

namespace Maker

/-- An Init whose reservation is filed names the swap of the envelope it came in. -/
def Matching (m : Maker) : Event → Prop
  | .record n => ∀ call ∈ m.calls[n]?, m.reserved[call.init.swapID]? = none →
      call.init.swapID = call.id
  | _ => True

/-- The reservations filed and the calls that filed them. -/
structure Keyed (m : Maker) : Prop where
  numbered : ∀ (n : Nat) (call : Call), m.calls[n]? = some call → n < m.next
  drawn : ∀ (n : Nat) (call : Call), m.calls[n]? = some call → call.stage.pending = true →
    call.res ≠ []
  entered : ∀ (n : Nat) (call : Call), m.calls[n]? = some call → call.stage.filed = true →
    m.reserved[call.id]? = some ⟨n, call.res⟩
  owned : ∀ (key : Bytes) (held : Held), m.reserved[key]? = some held →
    ∃ call : Call, m.calls[held.number]? = some call ∧ call.id = key ∧
      (call.stage.filed = true ∨ call.stage = .refused)

variable {V : Primitives} {makerPub : Bytes} {m m' : Maker}

theorem setCall_cases {n n' : Nat} {call call' : Call}
    (found : (m.setCall n call).calls[n']? = some call') :
    n' = n ∧ call' = call ∨ n' ≠ n ∧ m.calls[n']? = some call' := by
  rw [lookup_setCall] at found
  split_ifs at found with same
  · exact Or.inl ⟨same.symm, (Option.some.inj found).symm⟩
  · exact Or.inr ⟨Ne.symm same, found⟩

theorem reserve_ne_nil {b : Book} {now now' : Int} {giveAsset getAsset : Bytes} {size : UInt64}
    {opts : Book.ReserveOpts} {res : List Reservation} {getOut giveIn : UInt64} {b' : Book}
    (reserved : b.reserve V now now' giveAsset getAsset size opts =
      (.ok (res, getOut, giveIn), b')) : res ≠ [] := by
  unfold Book.reserve at reserved
  split at reserved
  · exact nomatch reserved
  · dsimp only at reserved
    split_ifs at reserved with empty short
    · exact nomatch reserved
    · exact nomatch reserved
    · have same := (Prod.mk.inj reserved).1
      rw [← (Prod.mk.inj (Except.ok.inj same)).1]
      exact empty

namespace Keyed

theorem empty : ({} : Maker).Keyed where
  numbered := by simp
  drawn := by simp
  entered := by simp
  owned := by simp

theorem makerDone (keyed : m.Keyed) {n : Nat} {call : Call} (found : m.calls[n]? = some call)
    (running : call.stage = .running) (now : Int) (swapKey : String) (success : Bool) :
    m.makerDone now n call.id swapKey success =
      (if success then
        { m with reserved := m.reserved.erase call.id }.commitTrade now ⟨n, call.res⟩ swapKey n
      else
        { m with reserved := m.reserved.erase call.id }.releaseReservation ⟨n, call.res⟩ n) := by
  have entry := keyed.entered n call found (by rw [running]; rfl)
  have drawn := keyed.drawn n call found (by rw [running]; rfl)
  unfold Maker.makerDone
  rw [entry]
  dsimp only
  rw [if_neg drawn]

theorem number_ne (keyed : m.Keyed) {n : Nat} {call : Call} (found : m.calls[n]? = some call)
    (unfiled : call.stage.filed = false) (unrefused : call.stage ≠ .refused) {key : Bytes}
    {held : Held} (entry : m.reserved[key]? = some held) : held.number ≠ n := by
  intro same
  obtain ⟨owner, owns, -, stage⟩ := keyed.owned key held entry
  rw [same, found] at owns
  obtain rfl := Option.some.inj owns
  rcases stage with filed | refused
  · rw [unfiled] at filed
    exact nomatch filed
  · exact unrefused refused

theorem move (keyed : m.Keyed) {n : Nat} {call moved : Call} (found : m.calls[n]? = some call)
    (unfiled : call.stage.filed = false) (unrefused : call.stage ≠ .refused)
    (still : moved.stage.filed = false)
    (drawn : moved.stage.pending = true → moved.res ≠ []) : (m.setCall n moved).Keyed := by
  constructor
  case numbered =>
    intro n' call' found'
    rcases setCall_cases found' with ⟨rfl, -⟩ | ⟨-, found'⟩
    · exact keyed.numbered _ call found
    · exact keyed.numbered n' call' found'
  case drawn =>
    intro n' call' found'
    rcases setCall_cases found' with ⟨rfl, rfl⟩ | ⟨-, found'⟩
    · exact drawn
    · exact keyed.drawn n' call' found'
  case entered =>
    intro n' call' found' filed
    rcases setCall_cases found' with ⟨rfl, rfl⟩ | ⟨-, found'⟩
    · rw [still] at filed
      exact nomatch filed
    · exact keyed.entered n' call' found' filed
  case owned =>
    intro key held entry
    obtain ⟨owner, owns, named, stage⟩ := keyed.owned key held entry
    refine ⟨owner, ?_, named, stage⟩
    rw [lookup_setCall, if_neg (keyed.number_ne found unfiled unrefused entry).symm]
    exact owns

theorem congr (keyed : m.Keyed) (calls : m'.calls = m.calls) (next : m'.next = m.next)
    (reserved : m'.reserved = m.reserved) : m'.Keyed := by
  obtain ⟨numbered, drawn, entered, owned⟩ := keyed
  constructor
  case numbered => rwa [calls, next]
  case drawn => rwa [calls]
  case entered => rwa [calls, reserved]
  case owned => rwa [calls, reserved]

/-- A message keeps the calls keyed. -/
theorem receive (keyed : m.Keyed) {now : Int} {fromPeer raw : Bytes} {o : Offer}
    (opened : m.receive makerPub now fromPeer raw o = some m') : m'.Keyed := by
  obtain ⟨env, init, -, -, -, -, rfl⟩ := receive_some opened
  have added : ∀ n call, ((m.calls.insert m.next
      { id := env.swapID, peer := fromPeer, init, offer := o })[n]? : Option Call) = some call →
      n = m.next ∧ call = { id := env.swapID, peer := fromPeer, init, offer := o } ∨
        n < m.next ∧ m.calls[n]? = some call := by
    intro n call found
    rcases setCall_cases (m := m) found with new | ⟨-, old⟩
    · exact Or.inl new
    · exact Or.inr ⟨keyed.numbered n call old, old⟩
  constructor
  case numbered =>
    intro n call found
    rcases added n call found with ⟨rfl, -⟩ | ⟨below, -⟩
    · exact Nat.lt_succ_self _
    · exact Nat.lt_succ_of_lt below
  case drawn =>
    intro n call found
    rcases added n call found with ⟨-, rfl⟩ | ⟨-, old⟩
    · exact fun pending => nomatch pending
    · exact keyed.drawn n call old
  case entered =>
    intro n call found
    rcases added n call found with ⟨-, rfl⟩ | ⟨-, old⟩
    · exact fun filed => nomatch filed
    · exact keyed.entered n call old
  case owned =>
    intro key held entry
    obtain ⟨owner, owns, rest⟩ := keyed.owned key held entry
    refine ⟨owner, ?_, rest⟩
    have below := keyed.numbered held.number owner owns
    change (m.calls.insert _ _)[held.number]? = _
    rw [OrdMap.lookup_insert, if_neg (Nat.ne_of_gt below)]
    exact owns

/-- A reservation keeps them keyed. -/
theorem reserve (keyed : m.Keyed) {n : Nat} {now now' : Int}
    (stepped : m.reserve V n now now' = some m') : m'.Keyed := by
  obtain ⟨call, found, stage, ⟨error, book, -, rfl⟩ | ⟨res, getOut, giveIn, book, taken, rfl⟩⟩ :=
    reserve_some stepped
  · have same : ({ m with log := { m.log with book } } : Maker).Keyed := keyed.congr rfl rfl rfl
    exact same.move found (by rw [stage]; rfl) (by rw [stage]; exact nofun) rfl
      fun pending => nomatch pending
  · have same : ({ m with log := { m.log with book, live := res + m.log.live } } : Maker).Keyed :=
      keyed.congr rfl rfl rfl
    exact same.move found (by rw [stage]; rfl) (by rw [stage]; exact nofun) rfl
      fun _ => reserve_ne_nil taken

/-- A record keeps them keyed. -/
theorem record (keyed : m.Keyed) {n : Nat} (matching : m.Matching (.record n))
    (stepped : m.record n = some m') : m'.Keyed := by
  obtain ⟨call, found, stage, ⟨-, rfl⟩ | ⟨free, rfl⟩⟩ := record_some stepped
  · have same : (m.releaseReservation ⟨n, call.res⟩ n).Keyed := keyed.congr rfl rfl rfl
    exact same.move found (by rw [stage]; rfl) (by rw [stage]; exact nofun) rfl
      fun pending => nomatch pending
  · have named := matching call found free
    rw [named] at free ⊢
    constructor
    case numbered =>
      intro n' call' found'
      rcases setCall_cases found' with ⟨rfl, -⟩ | ⟨-, found'⟩
      · exact keyed.numbered _ call found
      · exact keyed.numbered n' call' found'
    case drawn =>
      intro n' call' found'
      rcases setCall_cases found' with ⟨rfl, rfl⟩ | ⟨-, found'⟩
      · exact fun _ => keyed.drawn _ call found (by rw [stage]; rfl)
      · exact keyed.drawn n' call' found'
    case entered =>
      intro n' call' found' filed
      change (m.reserved.insert call.id ⟨n, call.res⟩)[call'.id]? = _
      rw [OrdMap.lookup_insert]
      rcases setCall_cases found' with ⟨rfl, rfl⟩ | ⟨-, found'⟩
      · exact if_pos rfl
      · have entry := keyed.entered n' call' found' filed
        rw [if_neg, entry]
        intro same
        rw [← same, free] at entry
        exact nomatch entry
    case owned =>
      intro key held entry
      change (m.reserved.insert call.id ⟨n, call.res⟩)[key]? = _ at entry
      rw [OrdMap.lookup_insert] at entry
      split_ifs at entry with same
      · obtain rfl := Option.some.inj entry
        refine ⟨{ call with stage := .recorded }, ?_, same, Or.inl rfl⟩
        rw [lookup_setCall, if_pos rfl]
      · obtain ⟨owner, owns, rest⟩ := keyed.owned key held entry
        refine ⟨owner, ?_, rest⟩
        have other := keyed.number_ne found (by rw [stage]; rfl) (by rw [stage]; exact nofun) entry
        rw [lookup_setCall, if_neg other.symm]
        exact owns

theorem advance (keyed : m.Keyed) {n : Nat} {call : Call} (found : m.calls[n]? = some call)
    (filed : call.stage.filed = true) {stage : Stage}
    (next : stage.filed = true ∨ stage = .refused) :
    (m.setCall n { call with stage }).Keyed := by
  constructor
  case numbered =>
    intro n' call' found'
    rcases setCall_cases found' with ⟨rfl, -⟩ | ⟨-, found'⟩
    · exact keyed.numbered _ call found
    · exact keyed.numbered n' call' found'
  case drawn =>
    intro n' call' found'
    rcases setCall_cases found' with ⟨rfl, rfl⟩ | ⟨-, found'⟩
    · exact fun _ => keyed.drawn _ call found (Stage.pending_of_filed filed)
    · exact keyed.drawn n' call' found'
  case entered =>
    intro n' call' found' filed'
    rcases setCall_cases found' with ⟨rfl, rfl⟩ | ⟨-, found'⟩
    · exact keyed.entered _ call found filed
    · exact keyed.entered n' call' found' filed'
  case owned =>
    intro key held entry
    obtain ⟨owner, owns, named, rest⟩ := keyed.owned key held entry
    by_cases same : n = held.number
    · subst same
      rw [found] at owns
      obtain rfl := Option.some.inj owns
      refine ⟨{ call with stage }, ?_, named, next⟩
      rw [lookup_setCall, if_pos rfl]
    · refine ⟨owner, ?_, named, rest⟩
      rw [lookup_setCall, if_neg same]
      exact owns

theorem enroll (keyed : m.Keyed) {n : Nat} (stepped : m.enroll n = some m') : m'.Keyed := by
  obtain ⟨call, found, stage, ⟨registry, -, rfl⟩ | ⟨error, -, rfl⟩⟩ := enroll_some stepped
  · have same : ({ m with registry } : Maker).Keyed := keyed.congr rfl rfl rfl
    exact same.advance found (by rw [stage]; rfl) (Or.inl rfl)
  · exact keyed.advance found (by rw [stage]; rfl) (Or.inr rfl)

theorem id_ne (keyed : m.Keyed) {n n' : Nat} {call call' : Call}
    (found : m.calls[n]? = some call) (found' : m.calls[n']? = some call')
    (filed : call.stage.filed = true) (filed' : call'.stage.filed = true) (other : n' ≠ n) :
    call.id ≠ call'.id := by
  intro same
  have entry := keyed.entered n call found filed
  rw [same, keyed.entered n' call' found' filed'] at entry
  exact other (congrArg Held.number (Option.some.inj entry))

theorem close (keyed : m.Keyed) {n : Nat} {call : Call} (found : m.calls[n]? = some call)
    (running : call.stage = .running) (success : Bool) :
    ({ m with reserved := m.reserved.erase call.id }.setCall n
      { call with stage := .closing success }).Keyed := by
  have filed : call.stage.filed = true := by
    rw [running]
    rfl
  constructor
  case numbered =>
    intro n' call' found'
    rcases setCall_cases found' with ⟨rfl, -⟩ | ⟨-, found'⟩
    · exact keyed.numbered _ call found
    · exact keyed.numbered n' call' found'
  case drawn =>
    intro n' call' found'
    rcases setCall_cases found' with ⟨rfl, rfl⟩ | ⟨-, found'⟩
    · exact fun pending => nomatch pending
    · exact keyed.drawn n' call' found'
  case entered =>
    intro n' call' found' filed'
    rcases setCall_cases found' with ⟨rfl, rfl⟩ | ⟨other, found'⟩
    · exact nomatch filed'
    · change (m.reserved.erase call.id)[call'.id]? = _
      rw [OrdMap.lookup_erase, if_neg (keyed.id_ne found found' filed filed' other)]
      exact keyed.entered n' call' found' filed'
  case owned =>
    intro key held entry
    change (m.reserved.erase call.id)[key]? = _ at entry
    rw [OrdMap.lookup_erase] at entry
    split_ifs at entry with same
    obtain ⟨owner, owns, named, rest⟩ := keyed.owned key held entry
    refine ⟨owner, ?_, named, rest⟩
    rw [lookup_setCall, if_neg]
    · exact owns
    · rintro rfl
      rw [found] at owns
      obtain rfl := Option.some.inj owns
      exact same named

theorem done (keyed : m.Keyed) {n : Nat} {now : Int} {success : Bool} {swapKey : String}
    (stepped : m.done n now success swapKey = some m') : m'.Keyed := by
  obtain ⟨call, found, running, rfl⟩ := done_some stepped
  rw [keyed.makerDone found running]
  have closed := keyed.close found running success
  split_ifs
  · exact closed.congr rfl rfl rfl
  · exact closed.congr rfl rfl rfl

theorem unregister (keyed : m.Keyed) {n : Nat} (stepped : m.unregister n = some m') :
    m'.Keyed := by
  obtain ⟨call, success, found, closing, rfl⟩ := unregister_some stepped
  have same : ({ m with registry := m.registry.unregister call.id } : Maker).Keyed :=
    keyed.congr rfl rfl rfl
  exact same.move found (by rw [closing]; rfl) (by rw [closing]; exact nofun) rfl
    fun pending => nomatch pending

theorem step (keyed : m.Keyed) {event : Event} (matching : m.Matching event)
    (stepped : m.step V makerPub event = some m') : m'.Keyed := by
  cases event with
  | receive now fromPeer raw o => exact keyed.receive stepped
  | reserve n now now' => exact keyed.reserve stepped
  | record n => exact keyed.record matching stepped
  | enroll n => exact keyed.enroll stepped
  | done n now success swapKey => exact keyed.done stepped
  | unregister n => exact keyed.unregister stepped
  | registry event =>
    rw [registryStep_some stepped]
    exact keyed.congr rfl rfl rfl
  | book op =>
    obtain ⟨log, others, -, rfl, -, -⟩ := bookStep_some stepped
    exact keyed.congr rfl rfl rfl

end Keyed

end Maker

/-! ## Every reservation is settled once -/

namespace Maker

/-- The settlements of the reservation that a call took. -/
def settlements (m : Maker) (n : Nat) : List Settlement :=
  m.settled.filter fun s => s.number = n

/-- A reservation is not settled before its session is over, and when the session is over or was
refused it has been committed or released once, by that session's own call. -/
def Accounted (m : Maker) : Prop :=
  ∀ (n : Nat) (call : Call), m.calls[n]? = some call → call.res ≠ [] →
    (call.stage.pending = true ∧ m.settlements n = []) ∨
      (call.stage.pending = false ∧ ∃ committed, m.settlements n = [⟨n, n, committed⟩])

/-- A session that is to be registered finds its id free and room under both caps. -/
def Admissible (m : Maker) : Event → Prop
  | .enroll n => ∀ call ∈ m.calls[n]?, m.registry.sessions[call.id]? = none ∧
      m.registry.sessions.size < Config.swapMaxSessions ∧
      (call.peer ≠ [] → m.registry.bound call.peer < Config.swapMaxSessionsPerPeer)
  | _ => True

/-- What the accounting of the maker needs of an event. -/
def Clean (m : Maker) (event : Event) : Prop := m.Matching event ∧ m.Admissible event

instance (m : Maker) (event : Event) : Decidable (m.Matching event) :=
  match event with
  | .record n => inferInstanceAs (Decidable (∀ call ∈ m.calls[n]?,
      m.reserved[call.init.swapID]? = none → call.init.swapID = call.id))
  | .receive .. | .reserve .. | .enroll .. | .done .. | .unregister .. | .registry .. | .book .. =>
    .isTrue trivial

instance (m : Maker) (event : Event) : Decidable (m.Admissible event) :=
  match event with
  | .enroll n => inferInstanceAs (Decidable (∀ call ∈ m.calls[n]?,
      m.registry.sessions[call.id]? = none ∧
        m.registry.sessions.size < Config.swapMaxSessions ∧
        (call.peer ≠ [] → m.registry.bound call.peer < Config.swapMaxSessionsPerPeer)))
  | .receive .. | .reserve .. | .record .. | .done .. | .unregister .. | .registry .. | .book .. =>
    .isTrue trivial

instance (m : Maker) (event : Event) : Decidable (m.Clean event) :=
  inferInstanceAs (Decidable (_ ∧ _))

/-- The settlements so far. -/
structure Settles (m : Maker) : Prop where
  accounted : m.Accounted
  undrawn : ∀ (n : Nat) (call : Call), m.calls[n]? = some call → call.stage = .matched →
    call.res = [] ∧ m.settlements n = []
  known : ∀ s ∈ m.settled, s.number < m.next

variable {V : Primitives} {makerPub : Bytes} {m m' : Maker}

theorem register_accepts {c : Coordinator} {s : Session} (free : c.sessions[s.id]? = none)
    (room : c.sessions.size < Config.swapMaxSessions)
    (roomForPeer : s.peer ≠ [] → c.bound s.peer < Config.swapMaxSessionsPerPeer) :
    ∃ c', c.register s = .ok c' := by
  refine ⟨{ c with sessions := c.sessions.insert s.id s }, ?_⟩
  unfold Coordinator.register
  simp only [Checked.bind_ok, Checked.reject_ok, exists_const, not_and, not_le]
  exact ⟨by simp [free], fun _ => room, fun _ => roomForPeer, rfl⟩

/-- One settlement more. -/
theorem settlements_append (m : Maker) (s : Settlement) (n : Nat) :
    ({ m with settled := m.settled ++ [s] } : Maker).settlements n =
      m.settlements n ++ if s.number = n then [s] else [] := by
  unfold settlements
  rw [List.filter_append]
  by_cases same : s.number = n
  · rw [if_pos same, List.filter_singleton, decide_eq_true same]
    rfl
  · rw [if_neg same, List.filter_singleton, decide_eq_false same]
    rfl

theorem Settles.fresh (settles : m.Settles) : m.settlements m.next = [] := by
  rw [settlements, List.filter_eq_nil_iff]
  intro s among same
  exact absurd (settles.known s among) (by simp at same; omega)

namespace Settles

theorem empty : ({} : Maker).Settles where
  accounted := by simp [Accounted]
  undrawn := by simp
  known := by simp

theorem congr (settles : m.Settles) (calls : m'.calls = m.calls) (next : m'.next = m.next)
    (settled : m'.settled = m.settled) : m'.Settles := by
  have same : ∀ n, m'.settlements n = m.settlements n := fun n => by
    rw [settlements, settlements, settled]
  constructor
  case accounted =>
    intro n call found drawn
    rw [calls] at found
    rw [same]
    exact settles.accounted n call found drawn
  case undrawn =>
    intro n call found
    rw [calls] at found
    rw [same]
    exact settles.undrawn n call found
  case known =>
    rw [settled, next]
    exact settles.known

/-- A call moves on without a settlement. -/
theorem move (settles : m.Settles) {n : Nat} {moved : Call} (unmatched : moved.stage ≠ .matched)
    (still : moved.res ≠ [] → moved.stage.pending = true ∧ m.settlements n = [] ∨
      moved.stage.pending = false ∧ ∃ committed, m.settlements n = [⟨n, n, committed⟩]) :
    (m.setCall n moved).Settles := by
  constructor
  case accounted =>
    intro n' call' found'
    rcases setCall_cases found' with ⟨rfl, rfl⟩ | ⟨-, found'⟩
    · exact still
    · exact settles.accounted n' call' found'
  case undrawn =>
    intro n' call' found' stage
    rcases setCall_cases found' with ⟨rfl, rfl⟩ | ⟨-, found'⟩
    · exact absurd stage unmatched
    · exact settles.undrawn n' call' found' stage
  case known => exact settles.known

theorem unsettled (settles : m.Settles) (keyed : m.Keyed) {n : Nat} {call : Call}
    (found : m.calls[n]? = some call) (pending : call.stage.pending = true) :
    m.settlements n = [] := by
  rcases settles.accounted n call found (keyed.drawn n call found pending) with
    ⟨-, none⟩ | ⟨unpending, -⟩
  · exact none
  · rw [pending] at unpending
    exact nomatch unpending

/-- A pending call settles its own reservation. -/
theorem settle (settles : m.Settles) (keyed : m.Keyed) {n : Nat} {call : Call}
    (found : m.calls[n]? = some call) (pending : call.stage.pending = true) (committed : Bool)
    (moved : Call) (unmatched : moved.stage ≠ .matched) (settled : moved.stage.pending = false) :
    (({ m with settled := m.settled ++ [⟨n, n, committed⟩] } : Maker).setCall n moved).Settles := by
  have none := settles.unsettled keyed found pending
  have kept : ∀ n', n' ≠ n →
      ({ m with settled := m.settled ++ [⟨n, n, committed⟩] } : Maker).settlements n' =
        m.settlements n' := by
    intro n' other
    rw [settlements_append, if_neg (Ne.symm other), List.append_nil]
  have own : ({ m with settled := m.settled ++ [⟨n, n, committed⟩] } : Maker).settlements n =
      [⟨n, n, committed⟩] := by
    rw [settlements_append, if_pos rfl, none, List.nil_append]
  constructor
  case accounted =>
    intro n' call' found' drawn
    rcases setCall_cases found' with ⟨rfl, rfl⟩ | ⟨other, found'⟩
    · exact Or.inr ⟨settled, committed, own⟩
    · have before := settles.accounted n' call' found' drawn
      rw [← kept n' other] at before
      exact before
  case undrawn =>
    intro n' call' found' stage
    rcases setCall_cases found' with ⟨rfl, rfl⟩ | ⟨other, found'⟩
    · exact absurd stage unmatched
    · have before := settles.undrawn n' call' found' stage
      rw [← kept n' other] at before
      exact before
  case known =>
    intro s among
    rcases List.mem_append.mp among with early | late
    · exact settles.known s early
    · rw [List.mem_singleton.mp late]
      exact keyed.numbered n call found

/-- A message settles nothing. -/
theorem receive (settles : m.Settles) {now : Int} {fromPeer raw : Bytes} {o : Offer}
    (opened : m.receive makerPub now fromPeer raw o = some m') : m'.Settles := by
  obtain ⟨env, init, -, -, -, -, rfl⟩ := receive_some opened
  constructor
  case accounted =>
    intro n call found drawn
    rcases setCall_cases (m := m) found with ⟨-, rfl⟩ | ⟨-, found⟩
    · exact absurd rfl drawn
    · exact settles.accounted n call found drawn
  case undrawn =>
    intro n call found stage
    rcases setCall_cases (m := m) found with ⟨rfl, rfl⟩ | ⟨-, found⟩
    · exact ⟨rfl, settles.fresh⟩
    · exact settles.undrawn n call found stage
  case known => exact fun s among => Nat.lt_succ_of_lt (settles.known s among)

/-- A reservation settles what it gives back. -/
theorem reserve (settles : m.Settles) {n : Nat} {now now' : Int}
    (stepped : m.reserve V n now now' = some m') : m'.Settles := by
  obtain ⟨call, found, stage, ⟨error, book, -, rfl⟩ | ⟨res, getOut, giveIn, book, -, rfl⟩⟩ :=
    reserve_some stepped
  · have undrawn := (settles.undrawn n call found stage).1
    have same : ({ m with log := { m.log with book } } : Maker).Settles :=
      settles.congr rfl rfl rfl
    exact same.move (fun refused => nomatch refused) fun drawn => absurd undrawn drawn
  · have none := (settles.undrawn n call found stage).2
    have same : ({ m with log := { m.log with book, live := res + m.log.live } } : Maker).Settles :=
      settles.congr rfl rfl rfl
    exact same.move (fun holding => nomatch holding) fun _ => Or.inl ⟨rfl, none⟩

/-- A record settles what it gives back. -/
theorem record (settles : m.Settles) (keyed : m.Keyed) {n : Nat}
    (stepped : m.record n = some m') : m'.Settles := by
  obtain ⟨call, found, stage, ⟨-, rfl⟩ | ⟨-, rfl⟩⟩ := record_some stepped
  · have settled := settles.settle keyed found (by rw [stage]; rfl) false
      { call with stage := .refused } (fun refused => nomatch refused) rfl
    exact settled.congr rfl rfl rfl
  · have none := settles.unsettled keyed found (by rw [stage]; rfl)
    have same : ({ m with
        reserved := m.reserved.insert call.init.swapID ⟨n, call.res⟩ } : Maker).Settles :=
      settles.congr rfl rfl rfl
    exact same.move (fun recorded => nomatch recorded) fun _ => Or.inl ⟨rfl, none⟩

/-- An enrolment settles what it gives back. -/
theorem enroll (settles : m.Settles) (keyed : m.Keyed) {n : Nat}
    (admissible : m.Admissible (.enroll n)) (stepped : m.enroll n = some m') : m'.Settles := by
  obtain ⟨call, found, stage, ⟨registry, -, rfl⟩ | ⟨error, refused, -⟩⟩ := enroll_some stepped
  · have none := settles.unsettled keyed found (by rw [stage]; rfl)
    have same : ({ m with registry } : Maker).Settles := settles.congr rfl rfl rfl
    exact same.move (fun running => nomatch running) fun _ => Or.inl ⟨rfl, none⟩
  · obtain ⟨free, room, roomForPeer⟩ := admissible call found
    obtain ⟨registry, accepted⟩ :=
      register_accepts (s := ⟨call.id, .maker, call.peer⟩) free room roomForPeer
    rw [accepted] at refused
    exact nomatch refused

/-- The end of a run settles once. -/
theorem done (settles : m.Settles) (keyed : m.Keyed) {n : Nat} {now : Int} {success : Bool}
    {swapKey : String} (stepped : m.done n now success swapKey = some m') : m'.Settles := by
  obtain ⟨call, found, running, rfl⟩ := done_some stepped
  rw [keyed.makerDone found running]
  have settled := fun committed => settles.settle keyed found (by rw [running]; rfl) committed
    { call with stage := .closing success } (fun closing => nomatch closing) rfl
  split_ifs
  · exact (settled true).congr rfl rfl rfl
  · exact (settled false).congr rfl rfl rfl

theorem unregister (settles : m.Settles) {n : Nat} (stepped : m.unregister n = some m') :
    m'.Settles := by
  obtain ⟨call, success, found, closing, rfl⟩ := unregister_some stepped
  have same : ({ m with registry := m.registry.unregister call.id } : Maker).Settles :=
    settles.congr rfl rfl rfl
  refine same.move (fun ended => nomatch ended) fun drawn => ?_
  rcases settles.accounted n call found drawn with ⟨pending, -⟩ | ⟨-, settled⟩
  · rw [closing] at pending
    exact nomatch pending
  · exact Or.inr ⟨rfl, settled⟩

theorem step (settles : m.Settles) (keyed : m.Keyed) {event : Event} (clean : m.Clean event)
    (stepped : m.step V makerPub event = some m') : m'.Settles := by
  cases event with
  | receive now fromPeer raw o => exact settles.receive stepped
  | reserve n now now' => exact settles.reserve stepped
  | record n => exact settles.record keyed stepped
  | enroll n => exact settles.enroll keyed clean.2 stepped
  | done n now success swapKey => exact settles.done keyed stepped
  | unregister n => exact settles.unregister stepped
  | registry event =>
    rw [registryStep_some stepped]
    exact settles.congr rfl rfl rfl
  | book op =>
    obtain ⟨log, others, -, rfl, -, -⟩ := bookStep_some stepped
    exact settles.congr rfl rfl rfl

end Settles

theorem run_invariant {condition : Maker → Event → Prop} (invariant : Maker → Prop)
    {events : List Event} (step : ∀ event ∈ events, ∀ m m', invariant m → condition m event →
      m.step V makerPub event = some m' → invariant m')
    (start : invariant m) (along : m.Along V makerPub condition events)
    (ran : m.run V makerPub events = some m') : invariant m' := by
  induction events generalizing m with
  | nil => exact Option.some.inj ran ▸ start
  | cons event events ih =>
    obtain ⟨here, rest⟩ := along
    obtain ⟨next, stepped, ran⟩ := Option.bind_eq_some_iff.mp ran
    exact ih (fun event among => step event (List.mem_cons_of_mem _ among))
      (step event List.mem_cons_self m next start here stepped) (rest next stepped) ran

/-- **Reservation accounting.** In a run from an idle maker in which every Init whose
reservation is filed names the swap of its envelope and every session to be registered finds its
id free and room under the caps, every reservation taken is settled exactly once, by its own
session, when that is over, and not before. -/
theorem reservations_settled_once (V : Primitives) (makerPub : Bytes) (events : List Event)
    (clean : ({} : Maker).Along V makerPub Clean events) (m : Maker)
    (ran : ({} : Maker).run V makerPub events = some m) : m.Accounted := by
  have kept := run_invariant (fun m => m.Keyed ∧ m.Settles)
    (fun event _ m m' held clean stepped =>
      ⟨held.1.step clean.1 stepped, held.2.step held.1 clean stepped⟩)
    ⟨Keyed.empty, Settles.empty⟩ clean ran
  exact kept.2.accounted

/-- An Init for ten OBX against seven XNO under a swap id. -/
def toyInit (swapID : Bytes) : Bytes :=
  let point := List.replicate 32 0
  Init.serialize ⟨swapID, 10, 7 * 10 ^ 18, 1, point, point, [], point, point⟩

/-- The Init in an envelope with another swap id, or the same one. -/
def toyEnvelope (envelopeID swapID : Bytes) : Bytes :=
  envelopeID ++ [kindInit] ++ bigEndian 4 (toyInit swapID).length ++ toyInit swapID

/-- The maker posts ten OBX for seven XNO, takes an Init for it, and the session ends. -/
def toyRun (envelopeID swapID : Bytes) (success : Bool) : List Event :=
  [.book (.add 10 10 toyOffer false),
    .receive 11 [104, 58, 49] (toyEnvelope envelopeID swapID) toyOffer,
    .reserve 0 11 11, .record 0, .enroll 0, .done 0 12 success "", .unregister 0]

/-- A session that sweeps commits its reservation. -/
theorem toyRun_accounted : ∃ m, ({} : Maker).run toyPrimitives toyOffer.maker
    (toyRun (List.replicate 32 5) (List.replicate 32 5) true) = some m ∧ m.Accounted := by
  have ends : (({} : Maker).run toyPrimitives toyOffer.maker
      (toyRun (List.replicate 32 5) (List.replicate 32 5) true)).isSome = true := by
    decide +kernel
  obtain ⟨m, ran⟩ := Option.isSome_iff_exists.mp ends
  have clean : ({} : Maker).Along toyPrimitives toyOffer.maker Clean
      (toyRun (List.replicate 32 5) (List.replicate 32 5) true) := by
    decide +kernel
  exact ⟨m, ran, reservations_settled_once _ _ _ clean m ran⟩

/-- An envelope whose id is not its Init's leaves the reservation behind. -/
theorem foreign_key_leaks : ¬ ∀ (events : List Event) (m : Maker),
    ({} : Maker).run toyPrimitives toyOffer.maker events = some m → m.Accounted := by
  intro accounted
  have leaks : ((({} : Maker).run toyPrimitives toyOffer.maker
      (toyRun (List.replicate 32 6) (List.replicate 32 5) false)).bind fun m =>
        m.calls[0]?.map fun call =>
          (decide (call.res = []), call.stage.pending, m.settlements 0)) =
      some (false, false, []) := by
    decide +kernel
  obtain ⟨m, ran, left⟩ := Option.bind_eq_some_iff.mp leaks
  obtain ⟨call, found, left⟩ := Option.map_eq_some_iff.mp left
  obtain ⟨drawn, left⟩ := Prod.mk.inj left
  obtain ⟨ended, unsettled⟩ := Prod.mk.inj left
  rcases accounted _ m ran 0 call found (of_decide_eq_false drawn) with
    ⟨pending, -⟩ | ⟨-, committed, settled⟩
  · rw [ended] at pending
    exact nomatch pending
  · rw [unsettled] at settled
    exact nomatch settled

end Maker

end Obscura.Swapnet
