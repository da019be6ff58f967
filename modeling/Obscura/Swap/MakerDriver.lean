import Obscura.Swap.Recovery
import Obscura.Swap.TakerDriver

/-! # The maker's driver

The coordinator's maker session and its recovery after a restart, as drivers over
an arbitrary world. The watch for a mined claim has no bound in the source; here
it runs for a given number of rounds and reports that it is still watching when
they are over.
-/

namespace Obscura.Swap

open Wire Checked Schnorr Tx

/-- What the maker's driver does to the world. An effect that the world may refuse
carries whether it took place. -/
inductive MakerEffect (Scalar Point : Type) where
  | save (st : SwapState Scalar Point) (written : Bool)
  | remove
  | send (kind : Kind)
  | receive
  | readHeight
  | fund (args : Maker.FundArgs Scalar Point) (locked : Bool)
  | readLedger
  /-- The maker computes its half for a request. -/
  | coSign (req : ClaimRequest Scalar)
  /-- Look for a mined claim of the swap output. -/
  | scrape
  | sweep (lockID : String) (secret : Scalar) (swept : Bool)
  | mineRefund (swapKey : Bytes) (refunded : Bool)
  | wait

/-- The world's answers, at each tick. -/
structure MakerWorld (Scalar Point : Type) where
  codec : Codec Scalar Point
  fee : UInt64
  sweepDest : String
  /-- The random shares, proof nonces and swap key. -/
  b : Scalar
  sB : Scalar
  commitProof : Scalar
  fundProof : Scalar
  swapKey : Bytes
  saved : Nat → Except String Unit
  sent : Nat → Kind → Except String Unit
  received : Nat → Except String Envelope
  height : Nat → UInt64
  fundSwapOut : Nat → Maker.FundArgs Scalar Point → Except String Unit
  nano : Nat → Maker.XNOView Point
  findSwapSpend : Nat → Bytes → Option (FullSig Scalar Point)
  sweep : Nat → Maker.Sweep Scalar
  mineRefund : Nat → Bytes → UInt64 → UInt64 → UInt64 → Except String Unit
  stopping : Nat → Bool

/-- How a session is left: swept, given up, or still watching for a claim. -/
inductive WatchEnd where
  | swept
  | windowClosed
  | stopping
  | watching
deriving DecidableEq

variable {Scalar Point : Type} [CommRing Scalar] [AddCommGroup Point] [DecidableEq Point]

namespace Maker

/-- The swap key a refund is asked for, if the session's guards admit one. -/
def refundCall (m : Maker Scalar Point) : Option Bytes :=
  if m.st.phase = .claimed ∨ m.st.phase = .swept then none else m.st.swapKey

/-- The account secret a sweep is asked for, if the session's guards admit one. -/
def sweepCall (S : Suite Scalar Point) (m : Maker Scalar Point) (sig : FullSig Scalar Point) :
    Option Scalar :=
  if m.st.phase ≠ .xnoLock then
    none
  else
    match m.recoverSecret S sig with
    | .error _ => none
    | .ok recovered =>
      if some (S.base recovered) = m.st.agreed.map Agreed.peerXNOShare ∧
          some (S.base (recovered + m.sB)) = m.st.agreed.map Agreed.xnoAccountPub then
        some (recovered + m.sB)
      else
        none

/-- The funding the chain is asked for, if the session's guards admit one. -/
def fundCall (S : Suite Scalar Point) (m : Maker Scalar Point) (k : Scalar) (height : UInt64)
    (swapKey : Bytes) (unlockHeight : UInt64) : Option (FundArgs Scalar Point) :=
  if unlockHeight < minUnlock height then
    none
  else
    match m.init, m.st.agreed, m.st.adaptorT with
    | some init, some agreed, some T => some (m.fundArgs S k swapKey unlockHeight init agreed T)
    | _, _, _ => none

end Maker

namespace MakerWorld

open Driver

variable (w : MakerWorld Scalar Point) (S : Suite Scalar Point)

/-- Persisting is best effort: its error is dropped. -/
def save (st : SwapState Scalar Point) : Driver (MakerEffect Scalar Point) Unit := do
  let _ ← ask (fun time => .save st (w.saved time).isOk) w.saved

/-- Send a message. -/
def send (kind : Kind) : Driver (MakerEffect Scalar Point) (Except String Unit) :=
  ask (fun _ => .send kind) (fun time => w.sent time kind)

/-- Tell the taker that the swap is off. -/
def abort : Driver (MakerEffect Scalar Point) Unit := do
  let _ ← w.send .abort

/-- The next message; an abort is an error. -/
def recv : Driver (MakerEffect Scalar Point) (Except String Envelope) := do
  match ← ask (fun _ => .receive) w.received with
  | .error text => pure (.error text)
  | .ok env =>
    if env.kind = .abort then
      pure (.error "swapnet: counterparty aborted the swap")
    else
      pure (.ok env)

/-- Arm the refund; the session's guards may refuse it. -/
def makerRefund (maker : Maker Scalar Point) : Driver (MakerEffect Scalar Point) Unit := do
  match maker.refundCall with
  | none => pure ()
  | some swapKey =>
    let answer ← ask
      (fun time => .mineRefund swapKey
        (w.mineRefund time swapKey maker.st.obxAmount maker.st.fee maker.st.unlockHeight).isOk)
      (fun time => w.mineRefund time)
    match maker.refund answer with
    | (.error _, _) => pure ()
    | (.ok (), maker) => w.save maker.st

/-- Refund, then give up. -/
def refundAndFail {α : Type} (maker : Maker Scalar Point) (text : String) :
    Driver (MakerEffect Scalar Point) α := do
  w.makerRefund maker
  fail text

/-- Receive a message of the wanted kind, or refund and give up. -/
def await {α : Type} (maker : Maker Scalar Point) (want : Kind) (parse : Bytes → Except String α) :
    Driver (MakerEffect Scalar Point) α := do
  match ← w.recv with
  | .error text => w.refundAndFail maker text
  | .ok env =>
    match parseKind env want parse with
    | .error text => w.refundAndFail maker text
    | .ok value => pure value

/-- Scrape the claim from the chain and sweep with the secret it reveals. -/
def sweepFromChain (maker : Maker Scalar Point) :
    Driver (MakerEffect Scalar Point) (Bool × Maker Scalar Point) := do
  match ← ask (fun _ => .scrape) (fun time => maker.st.swapKey.bind (w.findSwapSpend time)) with
  | none => pure (false, maker)
  | some sig =>
    match maker.sweepCall S sig with
    | none => pure (false, maker)
    | some secret => do
        let sweep ← ask
          (fun time => .sweep maker.st.xnoLockID secret
            (w.sweep time maker.st.xnoLockID secret maker.st.sweepDest).isOk)
          (fun time => w.sweep time)
        let (answer, maker) := maker.sweepXNOIndependent S sweep sig
        pure (answer.isOk, maker)

/-- Watch the chain until the claim is swept or the window has closed. -/
def makerSweep : Nat → Maker Scalar Point →
    Driver (MakerEffect Scalar Point) (WatchEnd × Maker Scalar Point)
  | 0, maker => pure (.watching, maker)
  | rounds + 1, maker => do
      let (swept, maker) ← w.sweepFromChain S maker
      if swept then
        pure (.swept, maker)
      else
        let height ← ask (fun _ => .readHeight) w.height
        if maker.st.unlockHeight ≤ height then
          pure (.windowClosed, maker)
        else if ← ask (fun _ => .wait) w.stopping then
          pure (.stopping, maker)
        else
          makerSweep rounds maker

/-- The last stage of a session. -/
def watchStage (rounds : Nat) (maker : Maker Scalar Point) :
    Driver (MakerEffect Scalar Point) WatchEnd := do
  let (ended, maker) ← w.makerSweep S rounds maker
  match ended with
  | .swept => do
      w.save maker.st
      pure .swept
  | .windowClosed => do
      w.makerRefund maker
      pure .windowClosed
  | .stopping => pure .stopping
  | .watching => pure .watching

/-- The unlock height the maker asks for. -/
def chooseUnlockHeight (height : UInt64) : UInt64 :=
  let least := UInt64.ofNat Config.swapReorgMargin + UInt64.ofNat Config.swapMinClaimWindow
  let window := UInt64.ofNat Config.swapTimelockWindow
  height + if window < least + 1 then least + 1 else window

/-- Agree on the joint keys. -/
def handshakeStage (swapID : Bytes) (init : Init Scalar Point) :
    Driver (MakerEffect Scalar Point) (Maker Scalar Point) := do
  let maker := newMaker w.b w.sB swapID init.obxAmount init.xnoAmount w.fee w.sweepDest
  match maker.handleInit S w.commitProof init with
  | (.error error, _) => do
      w.abort
      fail s!"HandleInit: {error.text}"
  | (.ok _, maker) => do
      w.save maker.st
      match ← w.send .makerCommit with
      | .error text => fail s!"send MakerCommit: {text}"
      | .ok () => pure maker

/-- The chain is only asked when the session's guards pass. -/
def askFunding (call : Option (Maker.FundArgs Scalar Point)) :
    Driver (MakerEffect Scalar Point) (Maker.FundArgs Scalar Point → Except String Unit) :=
  match call with
  | none => pure fun _ => .ok ()
  | some args =>
    ask (fun time => .fund args (w.fundSwapOut time args).isOk) fun time => w.fundSwapOut time

/-- Lock the OBX and announce it. -/
def fundStage (maker : Maker Scalar Point) : Driver (MakerEffect Scalar Point) (Maker Scalar Point) := do
  let unlock := chooseUnlockHeight (← ask (fun _ => .readHeight) w.height)
  let height ← ask (fun _ => .readHeight) w.height
  let answer ← w.askFunding (maker.fundCall S w.fundProof height w.swapKey unlock)
  match maker.fund S w.fundProof height w.swapKey answer unlock with
  | (.error error, _) => do
      w.abort
      fail s!"Fund: {error.text}"
  | (.ok _, maker) => do
      w.save maker.st
      match ← w.send .funded with
      | .error text => w.refundAndFail maker s!"send Funded: {text}"
      | .ok () => pure maker

/-- Poll until the taker's lock is cemented, with this many retries. -/
def confirmLoop (maker : Maker Scalar Point) (msg : XNOLocked) :
    Nat → Driver (MakerEffect Scalar Point) (Maker Scalar Point)
  | 0 => do
      match maker.confirmXNOLock (← ask (fun _ => .readLedger) w.nano) msg with
      | (.ok (), maker) => pure maker
      | (.error error, _) => do
          w.abort
          w.refundAndFail maker s!"ConfirmXNOLock: {error.text}"
  | retries + 1 => do
      match maker.confirmXNOLock (← ask (fun _ => .readLedger) w.nano) msg with
      | (.ok (), maker) => pure maker
      | (.error .lockNotConfirmed, _) =>
        if ← ask (fun _ => .wait) w.stopping then
          fail (SwapError.text .lockNotConfirmed)
        else
          confirmLoop maker msg retries
      | (.error error, _) => do
          w.abort
          w.refundAndFail maker s!"ConfirmXNOLock: {error.text}"

/-- Confirm the taker's lock. -/
def confirmStage (maker : Maker Scalar Point) :
    Driver (MakerEffect Scalar Point) (Maker Scalar Point) := do
  let msg ← w.await maker .xnoLocked w.codec.parseXNOLocked
  let maker ← w.confirmLoop maker msg 90
  w.save maker.st
  pure maker

/-- Co-sign the claim and release the half. -/
def coSignStage (maker : Maker Scalar Point) :
    Driver (MakerEffect Scalar Point) (Maker Scalar Point) := do
  let req ← w.await maker .claimRequest w.codec.parseClaimRequest
  match maker.coSignClaim S req with
  | (.error error, _) => do
      w.abort
      w.refundAndFail maker s!"CoSignClaim: {error.text}"
  | (.ok _, maker) => do
      perform (.coSign req)
      w.save maker.st
      match ← w.send .claimPreSig with
      | .error text => w.refundAndFail maker s!"send ClaimPreSig: {text}"
      | .ok () => pure maker

/-- The maker's session for an opening message. -/
def driveMaker (rounds : Nat) (swapID : Bytes) (init : Init Scalar Point) :
    Driver (MakerEffect Scalar Point) WatchEnd := do
  let maker ← w.handshakeStage S swapID init
  let maker ← w.fundStage S maker
  let maker ← w.confirmStage maker
  let maker ← w.coSignStage S maker
  w.watchStage S rounds maker

/-- The recovery of a persisted session. -/
def resumeMakerRecovery (rounds : Nat) (st : SwapState Scalar Point) :
    Driver (MakerEffect Scalar Point) WatchEnd := do
  match resumeMaker S st with
  | .error error => fail error.text
  | .ok maker => do
      let ended ← w.watchStage S rounds maker
      match ended with
      | .swept => do
          perform .remove
          pure .swept
      | other => pure other

end MakerWorld

/-- What a restart does with a persisted session. -/
inductive ResumeAction where
  | ignore
  | remove
  | redrive
deriving DecidableEq

/-- `resumeAction`: what a maker does with a saved session after a restart. -/
def resumeAction (st : SwapState Scalar Point) : ResumeAction :=
  if st.role ≠ .maker then
    .ignore
  else
    match st.phase with
    | .swept | .refunded | .init => .remove
    | .funded | .xnoLock | .claimed => .redrive

end Obscura.Swap
