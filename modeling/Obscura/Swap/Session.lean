import Obscura.Swap.Adaptor
import Obscura.Lib.Checked
import Obscura.Lib.Magnitude
import Obscura.Tx

/-! # Two-party swap sessions

The maker and the taker of an atomic swap as state machines: the handshake
messages and their checks, the maker's operations (handshake, funding, lock
confirmation, co-signing, sweeping, refunding, resuming from a saved state) and
the taker's (handshake, lock, claim request, claim). An operation returns its
answer together with the party it leaves behind, since a failing operation may
already have changed the party. What the chain and the XNO ledger answer is an
argument.
-/

namespace Obscura.Swap

open Wire Checked Schnorr Tx

/-- The errors of a session. -/
inductive SwapError where
  /-- `errMsg`. -/
  | malformed
  /-- `ErrFundingNotVisible`. -/
  | fundingNotVisible
  /-- `ErrXNOLockNotConfirmed`. -/
  | lockNotConfirmed
  /-- A nil pointer would be dereferenced. -/
  | nilDereference
  | failed (text : String)
deriving DecidableEq, Repr

/-- The two parties. -/
inductive Role where
  | maker
  | taker
deriving DecidableEq, Repr

/-- The phases in their order. -/
inductive Phase where
  | init
  | funded
  | xnoLock
  | claimed
  | swept
  | refunded
deriving DecidableEq, Repr

/-- `Phase.String`. -/
def Phase.text : Phase → String
  | .init => "init"
  | .funded => "funded"
  | .xnoLock => "xno_lock"
  | .claimed => "claimed"
  | .swept => "swept"
  | .refunded => "refunded"

/-- What the handshake agrees on; the source fills these fields of the session
state together. -/
structure Agreed (Point : Type) where
  peerClaimShare : Point
  peerXNOShare : Point
  peerNonceR : Point
  claimKey : Point
  aggNonceR : Point
  xnoAccountPub : Point
deriving DecidableEq

/-- The persistable state of one party. Raw XNO amounts are unbounded integers
in the source. -/
structure SwapState (Scalar Point : Type) where
  swapID : Bytes
  role : Role
  phase : Phase := .init
  ownShareClaim : Scalar
  ownShareXNO : Scalar
  agreed : Option (Agreed Point) := none
  ownNonceR : Option Point := none
  adaptorT : Option Point := none
  swapKey : Option Bytes := none
  obxAmount : UInt64
  xnoAmount : Nat
  fee : UInt64
  unlockHeight : UInt64 := 0
  xnoLockID : String := ""
  sweepDest : String := ""
  peerClaimHalf : Option Scalar := none
  coSignedCoreHash : Bytes := []
deriving DecidableEq

/-! ## Messages -/

/-- The taker's opening message. -/
structure Init (Scalar Point : Type) where
  swapID : Bytes
  obxAmount : UInt64
  xnoAmount : Nat
  fee : UInt64
  A : Point
  Sa : Point
  popA : SchnorrProof Scalar Point
  Ra : Point
  T : Point
deriving DecidableEq

/-- The maker's answer. -/
structure MakerCommit (Scalar Point : Type) where
  swapID : Bytes
  B : Point
  Sb : Point
  popB : SchnorrProof Scalar Point
  Rb : Point
deriving DecidableEq

/-- The maker's funding. -/
structure Funded where
  swapID : Bytes
  swapKey : Bytes
  unlockHeight : UInt64
deriving DecidableEq

/-- The taker's lock. -/
structure XNOLocked where
  swapID : Bytes
  lockID : String
deriving DecidableEq

/-- The taker's request for a half. -/
structure ClaimRequest (Scalar : Type) where
  swapID : Bytes
  coreHash : Bytes
  takerHalf : Scalar
deriving DecidableEq

/-- The maker's half. -/
structure ClaimPreSig (Scalar : Type) where
  swapID : Bytes
  sb : Scalar
deriving DecidableEq

variable {Scalar Point : Type} [CommRing Scalar] [AddCommGroup Point] [DecidableEq Point]

/-- A decoded point other than the identity. -/
def pointOf (p : Point) : Except SwapError Point :=
  if p = 0 then .error .malformed else .ok p

variable (S : Suite Scalar Point)

/-- `Validate` of an opening message: amounts, points and proofs. -/
def Init.validate (m : Init Scalar Point) : Except SwapError Unit := do
  reject (m.obxAmount = 0 ∨ m.xnoAmount = 0) .malformed
  reject (!verifyPossession S m.A m.popA) .malformed
  let _ ← pointOf m.Sa
  let _ ← pointOf m.Ra
  reject (m.T ≠ m.Sa) .malformed
  let _ ← pointOf m.T

/-- `Validate` of the maker's keys. -/
def MakerCommit.validate (m : MakerCommit Scalar Point) : Except SwapError Unit := do
  reject (!verifyPossession S m.B m.popB) .malformed
  let _ ← pointOf m.Sb
  let _ ← pointOf m.Rb

/-- A request that parses has a core hash; its half is a decoded scalar. -/
def ClaimRequest.validate (m : ClaimRequest Scalar) : Except SwapError Unit :=
  reject (m.coreHash = []) .malformed

/-- The claim key, the aggregate nonce and the joint XNO account. -/
def jointKeys (init : Init Scalar Point) (mc : MakerCommit Scalar Point) :
    Except SwapError (Point × Point × Point) := do
  let A ← pointOf init.A
  let B ← pointOf mc.B
  let Ra ← pointOf init.Ra
  let Rb ← pointOf mc.Rb
  return (aggregateKey A B, Ra + Rb, init.Sa + mc.Sb)

/-! ## Nonces and challenges -/

/-- A word, lowest byte first. -/
def putLittleEndian (v : UInt64) : Bytes := (bigEndian 8 v.toNat).reverse

/-- `ownTermHash`: the terms of a swap from one party's side. -/
def ownTermHash (swapID ownClaimShare ownXNOShare : Bytes) (obxAmt : UInt64) (xnoAmt : Nat) :
    Bytes :=
  let raw := magnitude xnoAmt
  S.sha512 (ascii "Obscura/swapsession/term/v1" ++ swapID ++ ownClaimShare ++ ownXNOShare ++
    putLittleEndian obxAmt ++ putLittleEndian (UInt64.ofNat raw.length) ++ raw)

/-- What a nonce is derived under. -/
def nonceDomain : Bytes := ascii "Obscura/swapsession/nonce/v1"

/-- `deriveNonce`: the same secret and the same core hash give the same nonce. -/
def deriveNonce (ownSecret : Scalar) (coreHash : Bytes) : Scalar :=
  hashToScalar S [nonceDomain, S.scalarBytes ownSecret, coreHash]

/-- The nonce a party with these shares derives for these terms. -/
def sessionNonce (swapID : Bytes) (claimShare xnoShare : Scalar) (obxAmt : UInt64) (xnoAmt : Nat) :
    Scalar :=
  deriveNonce S xnoShare (ownTermHash S swapID (S.pointBytes (S.base claimShare))
    (S.pointBytes (S.base xnoShare)) obxAmt xnoAmt)

/-- The challenge both halves are computed under. -/
def SwapState.challenge (st : SwapState Scalar Point) (coreHash : Bytes) : Option Scalar := do
  let agreed ← st.agreed
  let T ← st.adaptorT
  return adaptorChallenge S (agreed.aggNonceR + T) agreed.claimKey coreHash

/-! ## The maker -/

/-- The maker of a session: its record, its secrets and its nonces. -/
structure Maker (Scalar Point : Type) where
  st : SwapState Scalar Point
  b : Scalar
  sB : Scalar
  rb : Option Scalar := none
  init : Option (Init Scalar Point) := none
deriving DecidableEq

/-- The shares `b` and `sB` are drawn at random. -/
def newMaker (b sB : Scalar) (swapID : Bytes) (obxAmount : UInt64) (xnoAmount : Nat) (fee : UInt64)
    (sweepDest : String) : Maker Scalar Point where
  st :=
    { swapID, role := .maker, ownShareClaim := b, ownShareXNO := sB, obxAmount, xnoAmount, fee
      sweepDest }
  b := b
  sB := sB

/-- `ResumeMaker`: a maker from its saved record. -/
def resumeMaker (st : SwapState Scalar Point) : Except SwapError (Maker Scalar Point) :=
  if st.role ≠ .maker then
    .error (.failed "swapsession: ResumeMaker needs a maker SwapState")
  else
    .ok {
      st
      b := st.ownShareClaim
      sB := st.ownShareXNO
      rb := some (sessionNonce S st.swapID st.ownShareClaim st.ownShareXNO st.obxAmount
        st.xnoAmount) }

namespace Maker

variable (m : Maker Scalar Point)

/-- Verify the taker's opening message and commit to the joint keys. The
proof of possession is made with the random nonce `k`. -/
def handleInit (k : Scalar) (init : Init Scalar Point) :
    Except SwapError (MakerCommit Scalar Point) × Maker Scalar Point :=
  let st := m.st
  if init.swapID ≠ st.swapID then
    (.error .malformed, m)
  else if init.obxAmount ≠ st.obxAmount ∨ init.xnoAmount ≠ st.xnoAmount then
    (.error (.failed (s!"swapsession: amounts disagree (maker {st.obxAmount}/{st.xnoAmount}, " ++
      s!"init {init.obxAmount}/{init.xnoAmount})")), m)
  else if init.fee ≠ st.fee then
    (.error (.failed s!"swapsession: fee disagrees (maker {st.fee}, init {init.fee})"), m)
  else
    match init.validate S with
    | .error _ =>
      (.error (.failed "swapsession: invalid taker Init: swapsession: malformed or invalid message"),
        m)
    | .ok () =>
      let rb := sessionNonce S st.swapID m.b m.sB st.obxAmount st.xnoAmount
      let m := { m with init := some init, rb := some rb }
      let mc : MakerCommit Scalar Point :=
        { swapID := st.swapID, B := S.base m.b, Sb := S.base m.sB
          popB := provePossession S k m.b, Rb := S.base rb }
      match jointKeys init mc with
      | .error error => (.error error, m)
      | .ok (K, R, xnoPub) =>
        (.ok mc, { m with
          st := { st with
            agreed := some
              { peerClaimShare := init.A, peerXNOShare := init.Sa, peerNonceR := init.Ra
                claimKey := K, aggNonceR := R, xnoAccountPub := xnoPub }
            ownNonceR := some mc.Rb
            adaptorT := some init.T } })

/-- What the maker asks the chain to lock. -/
structure FundArgs (Scalar Point : Type) where
  swapKey : Bytes
  obxAmount : UInt64
  claimKey : Point
  refundKey : Point
  claimA : Point
  claimB : Point
  popA : SchnorrProof Scalar Point
  popB : SchnorrProof Scalar Point
  claimR : Point
  claimT : Point
  unlockHeight : UInt64
  fee : UInt64

/-- The arguments of the funding call: the refund key is the maker's own share. -/
def fundArgs (k : Scalar) (swapKey : Bytes) (unlockHeight : UInt64) (init : Init Scalar Point)
    (agreed : Agreed Point) (T : Point) : FundArgs Scalar Point where
  swapKey := swapKey
  obxAmount := m.st.obxAmount
  claimKey := agreed.claimKey
  refundKey := S.base m.b
  claimA := init.A
  claimB := S.base m.b
  popA := init.popA
  popB := provePossession S k m.b
  claimR := agreed.aggNonceR
  claimT := T
  unlockHeight := unlockHeight
  fee := m.st.fee

/-- The lowest unlock height with an open claim window. -/
def minUnlock (height : UInt64) : UInt64 :=
  height + UInt64.ofNat Config.swapReorgMargin + UInt64.ofNat Config.swapMinClaimWindow

/-- Lock the OBX under a fresh random swap key. -/
def fund (k : Scalar) (height : UInt64) (swapKey : Bytes)
    (fundSwapOut : FundArgs Scalar Point → Except String Unit) (unlockHeight : UInt64) :
    Except SwapError Funded × Maker Scalar Point :=
  match m.init with
  | none => (.error (.failed "swapsession: Fund before HandleInit"), m)
  | some init =>
    if unlockHeight < minUnlock height then
      (.error (.failed (s!"swapsession: unlock height {unlockHeight} leaves no claim window at " ++
        s!"height {height} (need >= {minUnlock height})")), m)
    else
      match m.st.agreed, m.st.adaptorT with
      | some agreed, some T =>
        match fundSwapOut (m.fundArgs S k swapKey unlockHeight init agreed T) with
        | .error text => (.error (.failed s!"swapsession: fund OBX swap: {text}"), m)
        | .ok () =>
          (.ok { swapID := m.st.swapID, swapKey, unlockHeight },
            { m with st := { m.st with
                swapKey := some swapKey, unlockHeight, phase := .funded } })
      | _, _ => (.error .nilDereference, m)

/-- What the XNO ledger answers about locks. -/
structure XNOView (Point : Type) where
  confirmed : String → Bool
  lockInfo : String → Except String (Nat × Point)

/-- Record the taker's lock once it is cemented and pays the joint account the
agreed amount. -/
def confirmXNOLock (nano : XNOView Point) (msg : XNOLocked) :
    Except SwapError Unit × Maker Scalar Point :=
  if msg.swapID ≠ m.st.swapID then
    (.error .malformed, m)
  else if m.st.phase ≠ .funded then
    (.error (.failed s!"swapsession: ConfirmXNOLock in phase {m.st.phase.text}"), m)
  else if !nano.confirmed msg.lockID then
    (.error .lockNotConfirmed, m)
  else
    match nano.lockInfo msg.lockID with
    | .error text =>
      (.error (.failed s!"swapsession: cannot read XNO lock info — refusing to co-sign: {text}"),
        m)
    | .ok (amount, accountPub) =>
      if m.st.agreed.map Agreed.xnoAccountPub ≠ some accountPub then
        (.error (.failed ("swapsession: XNO lock pays the WRONG account (not the joint sA+sB key) " ++
          "— refusing to co-sign")), m)
      else if amount ≠ m.st.xnoAmount then
        (.error (.failed (s!"swapsession: XNO lock amount {amount} != agreed {m.st.xnoAmount} — " ++
          "refusing to co-sign")), m)
      else
        (.ok (), { m with st := { m.st with xnoLockID := msg.lockID, phase := .xnoLock } })

/-- The verification equation of the taker's half. -/
def verifyTakerHalf (takerHalf : Scalar) (coreHash : Bytes) : Option Bool := do
  let agreed ← m.st.agreed
  let e ← m.st.challenge S coreHash
  return S.base takerHalf == agreed.peerNonceR + S.mult e agreed.peerClaimShare

/-- The maker's half of the pre-signature. -/
def preResponseHalf (coreHash : Bytes) : Option Scalar := do
  let e ← m.st.challenge S coreHash
  let rb ← m.rb
  return rb + e * m.b

/-- `CoSignClaim`: the maker's half of the claim's signature. -/
def coSignClaim (req : ClaimRequest Scalar) :
    Except SwapError (ClaimPreSig Scalar) × Maker Scalar Point :=
  if req.swapID ≠ m.st.swapID then
    (.error .malformed, m)
  else if m.st.xnoLockID = "" then
    (.error (.failed "swapsession: refusing to co-sign before the XNO lock is confirmed"), m)
  else if m.st.coSignedCoreHash ≠ [] ∧ m.st.coSignedCoreHash ≠ req.coreHash then
    (.error (.failed ("swapsession: refusing to co-sign a second distinct claim under the committed " ++
      "nonce (would leak the maker's share b)")), m)
  else
    match m.verifyTakerHalf S req.takerHalf req.coreHash, m.preResponseHalf S req.coreHash with
    | some true, some sb =>
      (.ok { swapID := m.st.swapID, sb },
        { m with st := { m.st with
            coSignedCoreHash := req.coreHash, peerClaimHalf := some req.takerHalf } })
    | some false, _ =>
      (.error (.failed ("swapsession: taker pre-signature half does not verify (ŝ_a·G != Ra + e·A) " ++
        "— refusing to co-sign")), m)
    | _, _ => (.error .nilDereference, m)

/-- Sweeping a lock with an account secret to a destination. -/
abbrev Sweep (Scalar : Type) := String → Scalar → String → Except String Unit

/-- Re-verify the recovered secret, then sweep. The phase advances to claimed
before the ledger answers. -/
def finishSweep (sweep : Sweep Scalar) (recovered : Scalar) :
    Except SwapError Unit × Maker Scalar Point :=
  if some (S.base recovered) ≠ m.st.agreed.map Agreed.peerXNOShare then
    (.error (.failed "swapsession: extracted secret is not the taker's sA — NOT sweeping"), m)
  else
    let accountSecret := recovered + m.sB
    if some (S.base accountSecret) ≠ m.st.agreed.map Agreed.xnoAccountPub then
      (.error (.failed "swapsession: recovered key does not control the joint account"), m)
    else
      let m := { m with st := { m.st with phase := .claimed } }
      match sweep m.st.xnoLockID accountSecret m.st.sweepDest with
      | .error text => (.error (.failed s!"swapsession: XNO sweep: {text}"), m)
      | .ok () => (.ok (), { m with st := { m.st with phase := .swept } })

/-- Sweep from an aggregate pre-signature the taker hands over. -/
def sweepXNO (sweep : Sweep Scalar) (presig : AdaptorSig Scalar Point)
    (fullSig : FullSig Scalar Point) : Except SwapError Unit × Maker Scalar Point :=
  if m.st.phase ≠ .xnoLock then
    (.error (.failed s!"swapsession: SweepXNO in phase {m.st.phase.text}"), m)
  else
    m.finishSweep S sweep (extract presig fullSig)

/-- The adaptor secret, recovered from a published signature and the stored
halves alone. -/
def recoverSecret (fullSig : FullSig Scalar Point) : Except SwapError Scalar :=
  match m.st.peerClaimHalf with
  | none =>
    .error (.failed ("swapsession: no stored taker pre-sig half ŝ_a — cannot extract sA " ++
      "independently (did the maker co-sign?)"))
  | some saHat =>
    if m.st.coSignedCoreHash = [] then
      .error (.failed ("swapsession: no co-signed core hash on record — cannot recompute the maker " ++
        "half ŝ_b"))
    else
      match m.preResponseHalf S m.st.coSignedCoreHash with
      | none => .error .nilDereference
      | some sbHat => .ok (fullSig.s - saHat - sbHat)

/-- `SweepXNO` without the taker: the secret comes from the claim on chain. -/
def sweepXNOIndependent (sweep : Sweep Scalar) (fullSig : FullSig Scalar Point) :
    Except SwapError Unit × Maker Scalar Point :=
  if m.st.phase ≠ .xnoLock then
    (.error (.failed s!"swapsession: SweepXNOIndependent in phase {m.st.phase.text}"), m)
  else
    match m.recoverSecret S fullSig with
    | .error error => (.error error, m)
    | .ok recovered => m.finishSweep S sweep recovered

/-- Reclaim the OBX through the refund branch. -/
def refund (mineRefund : Bytes → UInt64 → UInt64 → UInt64 → Except String Unit) :
    Except SwapError Unit × Maker Scalar Point :=
  match m.st.swapKey with
  | none => (.error (.failed "swapsession: nothing funded to refund"), m)
  | some swapKey =>
    if m.st.phase = .claimed ∨ m.st.phase = .swept then
      (.error (.failed "swapsession: claim already settled — no refund"), m)
    else
      match mineRefund swapKey m.st.obxAmount m.st.fee m.st.unlockHeight with
      | .error text => (.error (.failed s!"swapsession: refund: {text}"), m)
      | .ok () => (.ok (), { m with st := { m.st with phase := .refunded } })

end Maker

/-! ## The taker -/

/-- The taker of a session: its record, its secrets and its nonces. -/
structure Taker (Scalar Point : Type) where
  st : SwapState Scalar Point
  a : Scalar
  sA : Scalar
  ra : Scalar
  mc : Option (MakerCommit Scalar Point) := none
  claimTx : Option Transaction := none
  coreHash : Bytes := []
  presig : Option (AdaptorSig Scalar Point) := none

/-- The shares `a` and `sA` are drawn at random. -/
def newTaker (a sA : Scalar) (swapID : Bytes) (obxAmount : UInt64) (xnoAmount : Nat)
    (fee : UInt64) : Taker Scalar Point :=
  let ra := sessionNonce S swapID a sA obxAmount xnoAmount
  { a, sA, ra
    st :=
      { swapID, role := .taker, ownShareClaim := a, ownShareXNO := sA, obxAmount, xnoAmount, fee
        adaptorT := some (S.base sA), ownNonceR := some (S.base ra) } }

namespace Taker

variable (t : Taker Scalar Point)

/-- The opening message; the proof of possession is made with the random nonce
`k`. -/
def opening (k : Scalar) : Init Scalar Point where
  swapID := t.st.swapID
  obxAmount := t.st.obxAmount
  xnoAmount := t.st.xnoAmount
  fee := t.st.fee
  A := S.base t.a
  Sa := S.base t.sA
  popA := provePossession S k t.a
  Ra := S.base t.ra
  T := S.base t.sA

/-- `HandleMakerCommit`: the maker's keys are checked and kept. -/
def handleMakerCommit (k : Scalar) (mc : MakerCommit Scalar Point) :
    Except SwapError Unit × Taker Scalar Point :=
  if mc.swapID ≠ t.st.swapID then
    (.error .malformed, t)
  else
    match mc.validate S with
    | .error _ =>
      (.error (.failed ("swapsession: invalid MakerCommit: swapsession: malformed or invalid " ++
        "message")), t)
    | .ok () =>
      let t := { t with mc := some mc }
      match jointKeys (t.opening S k) mc with
      | .error error => (.error error, t)
      | .ok (K, R, xnoPub) =>
        (.ok (), { t with
          st := { t.st with
            agreed := some
              { peerClaimShare := mc.B, peerXNOShare := mc.Sb, peerNonceR := mc.Rb
                claimKey := K, aggNonceR := R, xnoAccountPub := xnoPub } } })

/-- What the chain answers at one moment. The height counts the headers of a Go
slice. -/
structure ChainView (Point : Type) where
  findSwapOut : Bytes → Option (SwapOutput Point)
  height : UInt64
  bounded : height.toNat < 2 ^ 63

/-- The on-chain output is the agreed one and leaves an open claim window. -/
def checkSwapOut (view : ChainView Point) (so : SwapOutput Point) (unlockHeight : UInt64) :
    Except String Unit := do
  reject (some so.claimKey ≠ t.st.agreed.map Agreed.claimKey) "claim key != K=A+B"
  reject (so.amount ≠ t.st.obxAmount)
    s!"locked OBX amount {so.amount} != agreed {t.st.obxAmount}"
  reject (so.unlockHeight ≠ unlockHeight) "unlock height mismatch"
  reject (so.unlockHeight < Maker.minUnlock view.height)
    (s!"unclaimable swap: unlock height {so.unlockHeight} leaves no claim window at height " ++
      s!"{view.height} (need >= {Maker.minUnlock view.height}) — NOT locking XNO")
  reject (some so.claimR ≠ t.st.agreed.map Agreed.aggNonceR) "ClaimR != R=Ra+Rb"
  reject (some so.claimT ≠ t.st.adaptorT) "ClaimT != T=sA·G"
  reject (some so.refundKey ≠ t.st.agreed.map Agreed.peerClaimShare) "refund key != maker's B"

/-- Sending raw XNO to an account. -/
abbrev Lock (Point : Type) := Nat → Point → Except String String

/-- The lock call this attempt makes, if its checks pass. -/
def lockCall (view : ChainView Point) (funded : Funded) :
    Except SwapError (Nat × Point) :=
  if funded.swapID ≠ t.st.swapID then
    .error .malformed
  else if t.mc.isNone then
    .error (.failed "swapsession: lock before MakerCommit")
  else
    match view.findSwapOut funded.swapKey with
    | none => .error .fundingNotVisible
    | some so =>
      match t.checkSwapOut view so funded.unlockHeight with
      | .error text =>
        .error (.failed s!"swapsession: OBX lock mismatch — NOT locking XNO: {text}")
      | .ok () =>
        match t.st.agreed with
        | none => .error .nilDereference
        | some agreed => .ok (t.st.xnoAmount, agreed.xnoAccountPub)

/-- Verify the maker's output on chain and only then lock the XNO. -/
def verifyFundedAndLock (view : ChainView Point) (lock : Lock Point) (funded : Funded) :
    Except SwapError XNOLocked × Taker Scalar Point :=
  match t.lockCall view funded with
  | .error error => (.error error, t)
  | .ok (amount, account) =>
    match lock amount account with
    | .error text => (.error (.failed s!"swapsession: lock XNO: {text}"), t)
    | .ok lockID =>
      (.ok { swapID := t.st.swapID, lockID },
        { t with st := { t.st with
            swapKey := some funded.swapKey, unlockHeight := funded.unlockHeight
            xnoLockID := lockID, phase := .xnoLock } })

/-- The taker's half of the pre-signature. -/
def preResponseHalf (coreHash : Bytes) : Option Scalar := do
  let e ← t.st.challenge S coreHash
  return t.ra + e * t.a

/-- Build the claim spend and request the maker's co-signature for it. -/
def buildClaimRequest (buildClaim : Except String (Transaction × Bytes)) :
    Except SwapError (ClaimRequest Scalar) × Taker Scalar Point :=
  if t.st.phase ≠ .xnoLock then
    (.error (.failed s!"swapsession: BuildClaimRequest in phase {t.st.phase.text}"), t)
  else
    match buildClaim with
    | .error text => (.error (.failed s!"swapsession: build claim: {text}"), t)
    | .ok (claimTx, coreHash) =>
      let t := { t with claimTx := some claimTx, coreHash }
      match t.preResponseHalf S coreHash with
      | none => (.error .nilDereference, t)
      | some takerHalf => (.ok { swapID := t.st.swapID, coreHash, takerHalf }, t)

/-- The aggregate pre-signature and the claim signature that would be published. -/
def finalSignature (presig : ClaimPreSig Scalar) :
    Except SwapError (AdaptorSig Scalar Point × FullSig Scalar Point) :=
  if presig.swapID ≠ t.st.swapID then
    .error .malformed
  else if t.claimTx.isNone then
    .error (.failed "swapsession: FinalizeClaim before BuildClaimRequest")
  else
    match t.st.agreed, t.st.adaptorT, t.preResponseHalf S t.coreHash with
    | some agreed, some T, some sa =>
      let presigAgg := { R := agreed.aggNonceR, s := sa + presig.sb }
      if !preVerify S agreed.claimKey t.coreHash T presigAgg then
        .error (.failed ("swapsession: aggregate pre-signature invalid (bad maker half) — not " ++
          "publishing"))
      else
        let full := adapt presigAgg t.sA T
        if !verifyFull S agreed.claimKey t.coreHash full then
          .error (.failed "swapsession: adapted claim signature invalid — not publishing")
        else
          .ok (presigAgg, full)
    | _, _, _ => .error .nilDereference

/-- Adapt the aggregate pre-signature and mine the claim; mining it publishes
the signature whatever the answer is. -/
def finalizeClaim (mineClaim : FullSig Scalar Point → Except String Unit)
    (presig : ClaimPreSig Scalar) :
    Except SwapError (AdaptorSig Scalar Point × FullSig Scalar Point) × Taker Scalar Point :=
  match t.finalSignature S presig with
  | .error error => (.error error, t)
  | .ok (presigAgg, full) =>
    let t := { t with presig := some presigAgg }
    match mineClaim full with
    | .error text => (.error (.failed s!"swapsession: mine claim: {text}"), t)
    | .ok () => (.ok (presigAgg, full), { t with st := { t.st with phase := .claimed } })

end Taker

end Obscura.Swap
