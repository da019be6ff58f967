import Obscura.Lib.Effects
import Obscura.Swap.TakerRun
import Obscura.Validate

/-! # The taker's driver

The coordinator's taker session as a driver over an arbitrary world: envelopes
arrive in any order, repeated or forged, sends fail at will, and the chain and
the XNO ledger answer each call as they like. Whatever happens, XNO is locked at
most once, with the agreed amount, to the joint account, and only when the chain
shows the agreed output with an open claim window.
-/

namespace Obscura.Swap

open Wire Checked Schnorr Tx

/-- The kinds of messages. -/
inductive Kind where
  | init
  | makerCommit
  | funded
  | xnoLocked
  | claimRequest
  | claimPreSig
  | abort
  | claimDone
deriving DecidableEq, Repr

/-- The tag byte of a kind. -/
def Kind.byte : Kind → Nat
  | .init => 1
  | .makerCommit => 2
  | .funded => 3
  | .xnoLocked => 4
  | .claimRequest => 5
  | .claimPreSig => 6
  | .abort => 7
  | .claimDone => 8

/-- A directed envelope that has been routed to the session. -/
structure Envelope where
  kind : Kind
  payload : Bytes
deriving DecidableEq

/-- The parsers of the message payloads. -/
structure Codec (Scalar Point : Type) where
  parseInit : Bytes → Except String (Init Scalar Point)
  parseMakerCommit : Bytes → Except String (MakerCommit Scalar Point)
  parseFunded : Bytes → Except String Funded
  parseXNOLocked : Bytes → Except String XNOLocked
  /-- The fields of a claim request, before it is validated. -/
  readClaimRequest : Bytes → Except String (ClaimRequest Scalar)
  parseClaimPreSig : Bytes → Except String (ClaimPreSig Scalar)

/-- An out-of-order message stops the session. -/
def parseKind {α : Type} (env : Envelope) (want : Kind) (parse : Bytes → Except String α) :
    Except String α :=
  if env.kind ≠ want then
    .error s!"swapnet: expected kind {want.byte}, got {env.kind.byte}"
  else
    match parse env.payload with
    | .error text => .error s!"swapnet: parse kind {want.byte}: {text}"
    | .ok value => .ok value

/-- `Error` of a session's error. -/
def SwapError.text : SwapError → String
  | .malformed => "swapsession: malformed or invalid message"
  | .fundingNotVisible => "swapsession: maker's OBX SwapOut not visible yet (sync lag)"
  | .lockNotConfirmed => "swapsession: taker's XNO lock not cemented yet"
  | .nilDereference => "nil pointer dereference"
  | .failed text => text

/-- A claim request parses only if it is valid. -/
def Codec.parseClaimRequest {Scalar Point : Type} (codec : Codec Scalar Point) (payload : Bytes) :
    Except String (ClaimRequest Scalar) :=
  match codec.readClaimRequest payload with
  | .error text => .error text
  | .ok req =>
    match req.validate with
    | .error error => .error error.text
    | .ok () => .ok req

theorem Codec.parseClaimRequest_valid {Scalar Point : Type} {codec : Codec Scalar Point} {payload : Bytes}
    {req : ClaimRequest Scalar} (parsed : codec.parseClaimRequest payload = .ok req) :
    req.validate = .ok () := by
  rw [Codec.parseClaimRequest] at parsed
  split at parsed
  · cases parsed
  split at parsed
  · cases parsed
  · obtain rfl := Except.ok.inj parsed
    assumption

/-- What the taker's driver does to the world. -/
inductive TakerEffect (Scalar Point : Type) where
  | save (st : SwapState Scalar Point)
  | send (kind : Kind)
  | receive
  /-- One verification of the funding, with the chain's answers. -/
  | verify (view : Taker.ChainView Point)
  /-- A call of the XNO ledger, with the chain's answers it rests on. -/
  | lock (amount : Nat) (account : Point) (funded : Funded) (view : Taker.ChainView Point)
  | wait
  | buildClaim
  | mineClaim (sig : FullSig Scalar Point)

/-- The world's answers, at each tick. -/
structure TakerWorld (Scalar Point : Type) where
  codec : Codec Scalar Point
  /-- The randomness of the proof of possession. -/
  proof : Scalar
  saved : Nat → Except String Unit
  sent : Nat → Except String Unit
  /-- The next envelope, or a timeout or a shutdown. -/
  received : Nat → Except String Envelope
  view : Nat → Taker.ChainView Point
  lock : Nat → Taker.Lock Point
  /-- The coordinator is stopping. -/
  stopping : Nat → Bool
  buildClaim : Nat → Except String (Transaction × Bytes)
  mineClaim : Nat → FullSig Scalar Point → Except String Unit

variable {Scalar Point : Type} [CommRing Scalar] [AddCommGroup Point] [DecidableEq Point]

namespace TakerWorld

open Driver

variable (w : TakerWorld Scalar Point)

/-- Persisting is best effort: its error is dropped. -/
def save (st : SwapState Scalar Point) : Driver (TakerEffect Scalar Point) Unit := do
  let _ ← ask (fun _ => .save st) w.saved

/-- Send a message. -/
def send (kind : Kind) : Driver (TakerEffect Scalar Point) (Except String Unit) :=
  ask (fun _ => .send kind) w.sent

/-- Send, and give up with the label in front when it fails. -/
def sendOrFail (label : String) (kind : Kind) : Driver (TakerEffect Scalar Point) Unit := do
  match ← w.send kind with
  | .error text => fail s!"{label}: {text}"
  | .ok () => pure ()

/-- Notify the peer; nothing depends on the answer. -/
def abort : Driver (TakerEffect Scalar Point) Unit := do
  let _ ← w.send .abort

/-- The next message; an abort is an error. -/
def recv : Driver (TakerEffect Scalar Point) Envelope := do
  let env ← ofExcept (← ask (fun _ => .receive) w.received)
  if env.kind = .abort then
    fail "swapnet: counterparty aborted the swap"
  else
    pure env

/-- One attempt to verify the funding and lock. -/
def attemptLock (tk : Taker Scalar Point) (funded : Funded) :
    Driver (TakerEffect Scalar Point) (Except SwapError XNOLocked × Taker Scalar Point) := do
  let view ← ask (fun time => .verify (w.view time)) w.view
  match tk.lockCall view funded with
  | .error error => pure (.error error, tk)
  | .ok (amount, account) =>
    let lock ← ask (fun _ => .lock amount account funded view) w.lock
    pure (tk.verifyFundedAndLock view lock funded)

/-- The safe leg ordering refused to lock. -/
def refuseLock (error : SwapError) :
    Driver (TakerEffect Scalar Point) (XNOLocked × Taker Scalar Point) := do
  w.abort
  fail s!"VerifyFundedAndLock: {error.text}"

/-- Poll while the funding is not visible, with this many retries; any other
refusal ends the session. -/
def lockLoop (tk : Taker Scalar Point) (funded : Funded) :
    Nat → Driver (TakerEffect Scalar Point) (XNOLocked × Taker Scalar Point)
  | 0 => do
      match ← w.attemptLock tk funded with
      | (.ok locked, tk) => pure (locked, tk)
      | (.error error, _) => w.refuseLock error
  | retries + 1 => do
      match ← w.attemptLock tk funded with
      | (.ok locked, tk) => pure (locked, tk)
      | (.error .fundingNotVisible, tk) =>
        if ← ask (fun _ => .wait) w.stopping then
          fail (SwapError.text .fundingNotVisible)
        else
          lockLoop tk funded retries
      | (.error error, _) => w.refuseLock error

variable (S : Suite Scalar Point)

/-- From the handshake to the verified lock. -/
def lockStage (tk : Taker Scalar Point) :
    Driver (TakerEffect Scalar Point) (XNOLocked × Taker Scalar Point) := do
  w.save tk.st
  w.sendOrFail "send Init" .init
  let env ← w.recv
  let mc ← ofExcept (parseKind env .makerCommit w.codec.parseMakerCommit)
  let (accepted, tk) := tk.handleMakerCommit S w.proof mc
  match accepted with
  | .error error => do
      w.abort
      fail s!"HandleMakerCommit: {error.text}"
  | .ok () => do
      w.save tk.st
      let env ← w.recv
      let funded ← ofExcept (parseKind env .funded w.codec.parseFunded)
      w.lockLoop tk funded 60

/-- From the lock to the mined claim. -/
def claimStage (locked : XNOLocked × Taker Scalar Point) :
    Driver (TakerEffect Scalar Point) Unit := do
  let tk := locked.2
  w.save tk.st
  w.sendOrFail "send XNOLocked" .xnoLocked
  let (req, tk) := tk.buildClaimRequest S (← ask (fun _ => .buildClaim) w.buildClaim)
  match req with
  | .error error => fail s!"BuildClaimRequest: {error.text}"
  | .ok _ => do
      w.sendOrFail "send ClaimRequest" .claimRequest
      let env ← w.recv
      let presig ← ofExcept (parseKind env .claimPreSig w.codec.parseClaimPreSig)
      match tk.finalSignature S presig with
      | .error error => fail s!"FinalizeClaim: {error.text}"
      | .ok (_, full) => do
          let mined ← ask (fun _ => .mineClaim full) w.mineClaim
          match tk.finalizeClaim S mined presig with
          | (.error error, _) => fail s!"FinalizeClaim: {error.text}"
          | (.ok _, tk) => do
              w.save tk.st
              let _ ← w.send .claimDone

/-- The taker's session. -/
def driveTaker (tk : Taker Scalar Point) : Driver (TakerEffect Scalar Point) Unit := do
  let locked ← w.lockStage S tk
  w.claimStage S locked

end TakerWorld

/-! ## Lock calls -/

/-- A call of the XNO ledger and what it rests on. -/
structure LockCall (Point : Type) where
  amount : Nat
  account : Point
  funded : Funded
  view : Taker.ChainView Point

/-- What a lock is asked with. -/
def TakerEffect.lockCall? : TakerEffect Scalar Point → Option (LockCall Point)
  | .lock amount account funded view => some { amount, account, funded, view }
  | _ => none

/-- Note the lock calls of a trace. -/
def noteLock (calls : List (LockCall Point)) (effect : TakerEffect Scalar Point) :
    List (LockCall Point) :=
  calls ++ effect.lockCall?.toList

omit [CommRing Scalar] [AddCommGroup Point] [DecidableEq Point] in
theorem foldl_noteLock (effects : List (TakerEffect Scalar Point)) (calls : List (LockCall Point)) :
    effects.foldl noteLock calls = calls ++ effects.filterMap TakerEffect.lockCall? := by
  induction effects generalizing calls with
  | nil => simp
  | cons effect effects ih =>
    rw [List.foldl_cons, ih, noteLock, List.append_assoc]
    cases noted : effect.lockCall? <;> simp [noted]

/-- What must hold when XNO is locked: the agreed amount goes to the joint account,
and the chain shows the agreed output with an open claim window, at whose end the
consensus rule still admits a claim. -/
structure SafeLock (S : Suite Scalar Point) (tk : Taker Scalar Point)
    (mc : MakerCommit Scalar Point) (call : LockCall Point) : Prop where
  amount : call.amount = tk.st.xnoAmount
  account : call.account = S.base tk.sA + mc.Sb
  output : ∃ so, call.view.findSwapOut call.funded.swapKey = some so ∧
    so.claimKey = S.base tk.a + mc.B ∧ so.amount = tk.st.obxAmount ∧
    so.claimT = S.base tk.sA ∧ so.claimR = S.base tk.ra + mc.Rb ∧ so.refundKey = mc.B ∧
    call.view.height.toNat + Config.swapReorgMargin + Config.swapMinClaimWindow ≤
      so.unlockHeight.toNat ∧
    ∀ (V : Primitives) (height : Nat) (ctx : Bytes) (entry : SwapEntry) (sig : Obscura.FullSig),
      entry.unlockHeight = so.unlockHeight →
      height ≤ call.view.height.toNat + Config.swapMinClaimWindow →
      V.claimBindingOK sig.R entry.claimR entry.claimT = true →
      V.verifyFull entry.claimKey ctx sig = true →
      checkSwapPath V false height ctx entry sig false = .ok ()

theorem minUnlock_toNat {height : UInt64} (bounded : height.toNat < 2 ^ 63) :
    (Maker.minUnlock height).toNat =
      height.toNat + Config.swapReorgMargin + Config.swapMinClaimWindow := by
  have margin : (UInt64.ofNat Config.swapReorgMargin).toNat = 512 := rfl
  have window : (UInt64.ofNat Config.swapMinClaimWindow).toNat = 50 := rfl
  have constants : Config.swapReorgMargin = 512 ∧ Config.swapMinClaimWindow = 50 := ⟨rfl, rfl⟩
  rw [Maker.minUnlock, UInt64.toNat_add, UInt64.toNat_add, margin, window]
  omega

theorem checkSwapPath_claim {V : Primitives} {height : Nat} {ctx : Bytes} {entry : SwapEntry}
    {sig : Obscura.FullSig} (below : height + Config.swapReorgMargin ≤ entry.unlockHeight.toNat)
    (bound : V.claimBindingOK sig.R entry.claimR entry.claimT = true)
    (verified : V.verifyFull entry.claimKey ctx sig = true) :
    checkSwapPath V false height ctx entry sig false = .ok () := by
  have window : ¬ (entry.unlockHeight.toNat < Config.swapReorgMargin ∨
      entry.unlockHeight.toNat - Config.swapReorgMargin < height) := by omega
  simp [checkSwapPath, reject, window, bound, verified, Bind.bind, Except.bind]

omit [DecidableEq Point] in
/-- What a lock that was allowed says. -/
theorem SafeLock.of_locks {S : Suite Scalar Point} {tk : Taker Scalar Point}
    {mc : MakerCommit Scalar Point} {amount : Nat} {account : Point} {funded : Funded}
    {view : Taker.ChainView Point} {so : SwapOutput Point} {agreed : Agreed Point}
    (adaptor : tk.st.adaptorT = some (S.base tk.sA))
    (locks : Taker.Locks (tk.agree S mc) view funded amount account so agreed) :
    SafeLock S tk mc { amount, account, funded, view } := by
  obtain rfl := Option.some.inj locks.known
  have wide : view.height.toNat + Config.swapReorgMargin + Config.swapMinClaimWindow ≤
      so.unlockHeight.toNat := by
    have window := locks.window
    rw [UInt64.lt_iff_toNat_lt, minUnlock_toNat view.bounded] at window
    exact Nat.not_lt.mp window
  refine ⟨locks.amount, locks.account, so, locks.found, locks.claimKey, locks.locked,
    Option.some.inj (locks.claimT.symm.trans adaptor), locks.claimR, locks.refundKey, wide, ?_⟩
  intro V height ctx entry sig same early bound verified
  refine checkSwapPath_claim ?_ bound verified
  dsimp only at early
  rw [same]
  omega

omit [CommRing Scalar] [AddCommGroup Point] [DecidableEq Point] in
theorem noteLock_of_none {effect : TakerEffect Scalar Point} (none : effect.lockCall? = none)
    (calls : List (LockCall Point)) : noteLock calls effect = calls := by
  rw [noteLock, none]
  exact List.append_nil calls

namespace TakerWorld

open Driver

variable {w : TakerWorld Scalar Point} {S : Suite Scalar Point}

section Quiet

omit [CommRing Scalar] [AddCommGroup Point] [DecidableEq Point]

theorem ask_leaves {α : Type} {effect : TakerEffect Scalar Point} {answer : Nat → α}
    (none : effect.lockCall? = none) :
    Leaves noteLock (ask (fun _ => effect) answer) fun value => ∃ time, answer time = value :=
  .ask (fun _ calls => noteLock_of_none none calls) fun time => ⟨time, rfl⟩

theorem save_leaves (st : SwapState Scalar Point) : Leaves noteLock (w.save st) fun _ => True :=
  (ask_leaves rfl).bind fun _ _ => .pure trivial

theorem send_leaves (kind : Kind) : Leaves noteLock (w.send kind) fun _ => True :=
  (ask_leaves rfl).mono fun _ _ => trivial

theorem sendOrFail_leaves (label : String) (kind : Kind) :
    Leaves noteLock (w.sendOrFail label kind) fun _ => True := by
  refine (send_leaves kind).bind fun answer _ => ?_
  cases answer with
  | error text => exact .fail
  | ok done => exact .pure trivial

theorem abort_leaves : Leaves noteLock w.abort fun _ => True :=
  (send_leaves .abort).bind fun _ _ => .pure trivial

theorem recv_leaves : Leaves noteLock w.recv fun env => ∃ time, w.received time = .ok env := by
  refine (ask_leaves rfl).bind fun answer delivered => ?_
  have unpacked : Leaves noteLock
      (ofExcept answer : Driver (TakerEffect Scalar Point) Envelope) fun env => answer = .ok env :=
    .ofExcept fun _ same => same
  refine unpacked.bind fun env same => ?_
  split_ifs with aborted
  · exact .fail
  · obtain ⟨time, received⟩ := delivered
    exact .pure ⟨time, received.trans same⟩

theorem parseKind_ok {α : Type} {env : Envelope} {want : Kind} {parse : Bytes → Except String α}
    {value : α} (parsed : parseKind env want parse = .ok value) :
    env.kind = want ∧ parse env.payload = .ok value := by
  rw [parseKind] at parsed
  split_ifs at parsed with kind
  split at parsed
  · cases parsed
  · rename_i found same
    exact ⟨not_not.mp kind, by rw [same, Except.ok.inj parsed]⟩

theorem parse_leaves {α : Type} (env : Envelope) (want : Kind)
    (parse : Bytes → Except String α) :
    Leaves noteLock (ofExcept (parseKind env want parse) : Driver (TakerEffect Scalar Point) α)
      fun value => parse env.payload = .ok value :=
  .ofExcept fun _ parsed => (parseKind_ok parsed).2

end Quiet

/-- After the lock nothing is locked. -/
theorem claimStage_leaves (locked : XNOLocked × Taker Scalar Point) :
    Leaves noteLock (w.claimStage S locked) fun _ => True := by
  refine (save_leaves _).bind fun _ _ => ?_
  refine (sendOrFail_leaves _ _).bind fun _ _ => ?_
  refine (ask_leaves rfl).bind fun built _ => ?_
  dsimp only
  split
  · exact .fail
  refine (sendOrFail_leaves _ _).bind fun _ _ => ?_
  refine recv_leaves.bind fun env _ => ?_
  refine (parse_leaves env .claimPreSig w.codec.parseClaimPreSig).bind fun presig _ => ?_
  split
  · exact .fail
  refine (ask_leaves rfl).bind fun mined _ => ?_
  split
  · exact .fail
  refine (save_leaves _).bind fun _ _ => ?_
  exact (send_leaves _).bind fun _ _ => .pure trivial

/-- Nothing is locked, or one safe lock was made on a commitment the session
received. -/
def LockedOnce (w : TakerWorld Scalar Point) (S : Suite Scalar Point) (tk : Taker Scalar Point)
    (calls : List (LockCall Point)) : Prop :=
  calls = [] ∨ ∃ time env mc call, w.received time = .ok env ∧
    w.codec.parseMakerCommit env.payload = .ok mc ∧ calls = [call] ∧ SafeLock S tk mc call

/-- A commitment the session received. -/
def Received (w : TakerWorld Scalar Point) (mc : MakerCommit Scalar Point) : Prop :=
  ∃ time env, w.received time = .ok env ∧ w.codec.parseMakerCommit env.payload = .ok mc

theorem attemptLock_meets {tk : Taker Scalar Point} {mc : MakerCommit Scalar Point}
    (adaptor : tk.st.adaptorT = some (S.base tk.sA)) (received : w.Received mc) (funded : Funded) :
    Meets noteLock (fun _ => w.LockedOnce S tk) (fun _ calls => calls = [])
      (w.attemptLock (tk.agree S mc) funded)
      (fun answer _ calls => w.LockedOnce S tk calls ∧
        (answer.1 = .error .fundingNotVisible → calls = [] ∧ answer.2 = tk.agree S mc))
      (fun _ => w.LockedOnce S tk) := by
  have viewed : Meets noteLock (fun _ => w.LockedOnce S tk) (fun _ calls => calls = [])
      (ask (fun time => (.verify (w.view time) : TakerEffect Scalar Point)) w.view)
      (fun _ _ calls => calls = []) (fun _ => w.LockedOnce S tk) := by
    refine Meets.ask fun time calls nothing => ?_
    rw [noteLock_of_none rfl]
    exact ⟨.inl nothing, .inl nothing, nothing⟩
  refine viewed.bind fun view => ?_
  cases allowed : (tk.agree S mc).lockCall view funded with
  | error error => exact Meets.pure fun _ _ nothing => ⟨.inl nothing, .inl nothing, fun _ =>
    ⟨nothing, rfl⟩⟩
  | ok call =>
    obtain ⟨amount, account⟩ := call
    obtain ⟨so, agreed, locks⟩ := Taker.lockCall_ok allowed
    obtain ⟨time, env, delivered, parsed⟩ := received
    have once : w.LockedOnce S tk [{ amount, account, funded, view }] :=
      .inr ⟨time, env, mc, _, delivered, parsed, rfl, .of_locks adaptor locks⟩
    have called : Meets noteLock (fun _ => w.LockedOnce S tk) (fun _ calls => calls = [])
        (ask (fun _ => (.lock amount account funded view : TakerEffect Scalar Point)) w.lock)
        (fun _ _ => w.LockedOnce S tk) (fun _ => w.LockedOnce S tk) := by
      refine Meets.ask fun time calls nothing => ?_
      rw [nothing]
      exact ⟨.inl rfl, once, once⟩
    refine called.bind fun lock => Meets.pure fun _ calls safe => ⟨safe, safe, fun unseen => ?_⟩
    -- once the ledger is called the answer is not a missing funding
    simp only [Taker.verifyFundedAndLock, allowed] at unseen
    cases answered : lock amount account with
    | error text => simp [answered] at unseen
    | ok lockID => simp [answered] at unseen

omit [DecidableEq Point] in
theorem refuseLock_meets {tk : Taker Scalar Point} (error : SwapError) :
    Meets noteLock (fun _ => w.LockedOnce S tk) (fun _ => w.LockedOnce S tk)
      (w.refuseLock error) (fun _ _ => w.LockedOnce S tk) (fun _ => w.LockedOnce S tk) := by
  have quiet : Leaves noteLock (w.refuseLock error) fun _ => True :=
    abort_leaves.bind fun _ _ => .fail
  exact (quiet _).mono (fun _ _ start => start) (fun _ _ _ done => done.2) (fun _ _ done => done)

/-- The loop stops at its first lock, whatever the ledger answers. -/
theorem lockLoop_meets {tk : Taker Scalar Point} {mc : MakerCommit Scalar Point}
    (adaptor : tk.st.adaptorT = some (S.base tk.sA)) (received : w.Received mc) (funded : Funded) (retries : Nat) :
    Meets noteLock (fun _ => w.LockedOnce S tk) (fun _ calls => calls = [])
      (w.lockLoop (tk.agree S mc) funded retries) (fun _ _ => w.LockedOnce S tk)
      (fun _ => w.LockedOnce S tk) := by
  induction retries with
  | zero =>
    refine (attemptLock_meets adaptor received funded).bind fun answer => ?_
    obtain ⟨result, next⟩ := answer
    cases result with
    | ok locked => exact Meets.pure fun _ _ start => ⟨start.1, start.1⟩
    | error error =>
      exact (refuseLock_meets error).mono (fun _ _ start => start.1) (fun _ _ _ done => done)
        (fun _ _ done => done)
  | succ retries ih =>
    refine (attemptLock_meets adaptor received funded).bind fun answer => ?_
    obtain ⟨result, next⟩ := answer
    cases result with
    | ok locked => exact Meets.pure fun _ _ start => ⟨start.1, start.1⟩
    | error error =>
      cases error with
      | fundingNotVisible =>
        have waited : Meets noteLock (fun _ => w.LockedOnce S tk)
            (fun _ calls => w.LockedOnce S tk calls ∧
              ((.error .fundingNotVisible : Except SwapError XNOLocked) =
                .error .fundingNotVisible → calls = [] ∧ next = tk.agree S mc))
            (ask (fun _ => (.wait : TakerEffect Scalar Point)) w.stopping)
            (fun _ _ calls => next = tk.agree S mc ∧ calls = [])
            (fun _ => w.LockedOnce S tk) := by
          refine Meets.ask fun time calls start => ?_
          obtain ⟨safe, unseen⟩ := start
          obtain ⟨nothing, same⟩ := unseen rfl
          rw [noteLock_of_none rfl]
          exact ⟨safe, safe, same, nothing⟩
        refine waited.bind fun stop => Meets.assume fun same => ?_
        subst same
        cases stop with
        | true => exact Meets.fail fun _ _ nothing => ⟨.inl nothing, .inl nothing⟩
        | false => exact ih
      | malformed | lockNotConfirmed | nilDereference | failed =>
        exact (refuseLock_meets _).mono (fun _ _ start => start.1)
          (fun _ _ _ done => done) (fun _ _ done => done)

/-- **The lock** is asked for once, with what the taker checked. -/
theorem lockStage_meets {tk : Taker Scalar Point}
    (adaptor : tk.st.adaptorT = some (S.base tk.sA)) :
    Meets noteLock (fun _ => w.LockedOnce S tk) (fun _ calls => calls = []) (w.lockStage S tk)
      (fun _ _ => w.LockedOnce S tk) (fun _ => w.LockedOnce S tk) := by
  -- a quiet stage keeps that nothing is locked
  have quietly {α : Type} {driver : Driver (TakerEffect Scalar Point) α} {returns : α → Prop}
      (quiet : Leaves noteLock driver returns) :
      Meets noteLock (fun _ => w.LockedOnce S tk) (fun _ calls => calls = []) driver
        (fun value _ calls => returns value ∧ calls = []) (fun _ => w.LockedOnce S tk) :=
    quiet.meets fun _ nothing => .inl nothing
  refine (quietly (save_leaves _)).bind fun _ => Meets.assume fun _ => ?_
  refine (quietly (sendOrFail_leaves _ _)).bind fun _ => Meets.assume fun _ => ?_
  refine (quietly recv_leaves).bind fun env => Meets.assume fun delivered => ?_
  refine (quietly (parse_leaves _ _ _)).bind fun mc => Meets.assume fun parsed => ?_
  obtain ⟨time, arrived⟩ := delivered
  obtain ⟨error, failed⟩ | ⟨error, failed⟩ | ⟨accepted, -⟩ := tk.handleMakerCommit_cases S w.proof mc
  · rw [failed]
    exact (quietly abort_leaves).bind fun _ => Meets.assume fun _ =>
      Meets.fail fun _ _ nothing => ⟨.inl nothing, .inl nothing⟩
  · rw [failed]
    exact (quietly abort_leaves).bind fun _ => Meets.assume fun _ =>
      Meets.fail fun _ _ nothing => ⟨.inl nothing, .inl nothing⟩
  · rw [accepted]
    refine (quietly (save_leaves _)).bind fun _ => Meets.assume fun _ => ?_
    refine (quietly recv_leaves).bind fun _ => Meets.assume fun _ => ?_
    refine (quietly (parse_leaves _ _ _)).bind fun funded => Meets.assume fun _ => ?_
    exact lockLoop_meets adaptor ⟨time, env, arrived, parsed⟩ funded 60

end TakerWorld

/-- Every run of the taker's driver calls the XNO ledger at most once, and only
for a safe lock on a commitment the session received. -/
theorem driveTaker_locks_safely (S : Suite Scalar Point) (w : TakerWorld Scalar Point)
    (a sA : Scalar) (swapID : Bytes) (obxAmount : UInt64) (xnoAmount : Nat) (fee : UInt64)
    (start : Nat) :
    let tk : Taker Scalar Point := newTaker S a sA swapID obxAmount xnoAmount fee
    let calls := ((w.driveTaker S tk).effects start).filterMap TakerEffect.lockCall?
    calls.length ≤ 1 ∧ ∀ call ∈ calls, ∃ time env mc, w.received time = .ok env ∧
      w.codec.parseMakerCommit env.payload = .ok mc ∧ SafeLock S tk mc call := by
  intro tk calls
  have meets : Driver.Meets noteLock (fun _ => w.LockedOnce S tk) (fun _ calls => calls = [])
      (w.driveTaker S tk) (fun _ _ => w.LockedOnce S tk) (fun _ => w.LockedOnce S tk) := by
    refine (TakerWorld.lockStage_meets rfl).bind fun locked => ?_
    exact (TakerWorld.claimStage_leaves locked _).mono (fun _ _ start => start)
      (fun _ _ _ done => done.2) (fun _ _ done => done)
  have once := (meets start [] rfl).1 _ le_rfl
  rw [List.take_length, foldl_noteLock, List.nil_append] at once
  rcases once with nothing | ⟨time, env, mc, call, arrived, parsed, single, safe⟩
  · have empty : calls = [] := nothing
    rw [empty]
    exact ⟨Nat.zero_le 1, fun _ absurd => nomatch absurd⟩
  · have one : calls = [call] := single
    rw [one]
    refine ⟨le_rfl, fun other member => ?_⟩
    obtain rfl := List.mem_singleton.mp member
    exact ⟨time, env, mc, arrived, parsed, safe⟩

end Obscura.Swap
