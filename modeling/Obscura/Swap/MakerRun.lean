import Obscura.Swap.Session

/-! # Runs of a maker

A maker under any sequence of its operations, with any messages and any answers
of the chain and the ledger, saving its state and resuming from states it saved.
The log keeps the signature halves it has handed out. `Maker.Moves` says once
what an operation can do to a maker; the coherence of the joint keys follows for
every run.
-/

namespace Obscura.Swap

open Wire Checked Schnorr

variable {Scalar Point : Type} [CommRing Scalar] [AddCommGroup Point] [DecidableEq Point]
variable (S : Suite Scalar Point)

/-- The nonce the owner of a session state signs with. -/
def SwapState.nonce (st : SwapState Scalar Point) : Scalar :=
  sessionNonce S st.swapID st.ownShareClaim st.ownShareXNO st.obxAmount st.xnoAmount

/-- The fields of a session state that no operation changes. -/
def SwapState.identity (st : SwapState Scalar Point) :
    Bytes × Role × Scalar × Scalar × UInt64 × Nat :=
  (st.swapID, st.role, st.ownShareClaim, st.ownShareXNO, st.obxAmount, st.xnoAmount)

omit [DecidableEq Point] in
theorem SwapState.nonce_of_identity {first second : SwapState Scalar Point}
    (same : first.identity = second.identity) : first.nonce S = second.nonce S := by
  simp only [SwapState.identity, Prod.mk.injEq] at same
  obtain ⟨swapID, -, claim, xno, obx, raw⟩ := same
  rw [SwapState.nonce, SwapState.nonce, swapID, claim, xno, obx, raw]

/-! ## What an operation can do -/

namespace Maker

/-- The maker after the joint keys of an opening message are agreed. -/
def agree (m : Maker Scalar Point) (init : Init Scalar Point) : Maker Scalar Point :=
  { m with
    init := some init
    rb := some (m.st.nonce S)
    st := { m.st with
      agreed := some
        { peerClaimShare := init.A, peerXNOShare := init.Sa, peerNonceR := init.Ra
          claimKey := init.A + S.base m.st.ownShareClaim
          aggNonceR := init.Ra + S.base (m.st.nonce S)
          xnoAccountPub := init.Sa + S.base m.st.ownShareXNO }
      ownNonceR := some (S.base (m.st.nonce S))
      adaptorT := some init.T } }

/-- The maker with a co-signed request on record. -/
def record (m : Maker Scalar Point) (req : ClaimRequest Scalar) : Maker Scalar Point :=
  { m with st := { m.st with
      coSignedCoreHash := req.coreHash, peerClaimHalf := some req.takerHalf } }

/-- What an operation can make of a maker that holds its own shares. -/
inductive Moves (m : Maker Scalar Point) : Maker Scalar Point → Prop
  | stay : Moves m m
  /-- A handshake that fails after the message was taken in. -/
  | hear (init : Init Scalar Point) :
      Moves m { m with init := some init, rb := some (m.st.nonce S) }
  | agree (init : Init Scalar Point) (bound : init.T = init.Sa) : Moves m (m.agree S init)
  | progress (swapKey : Option Bytes) (unlockHeight : UInt64) (phase : Phase) (lockID : String) :
      Moves m { m with st := { m.st with swapKey, unlockHeight, phase, xnoLockID := lockID } }
  | coSign (req : ClaimRequest Scalar) : Moves m (m.record req)

/-- A maker signs with the shares of its state. -/
def HoldsShares (m : Maker Scalar Point) : Prop :=
  m.b = m.st.ownShareClaim ∧ m.sB = m.st.ownShareXNO

/-- What an accepted opening message satisfies. -/
structure Opens (m : Maker Scalar Point) (init : Init Scalar Point) : Prop where
  possession : verifyPossession S init.A init.popA = true
  share : init.Sa ≠ 0
  nonce : init.Ra ≠ 0
  bound : init.T = init.Sa
  ownNonce : S.base (m.st.nonce S) ≠ 0

omit [CommRing Scalar] in
theorem pointOf_ok {p q : Point} : pointOf p = .ok q ↔ p ≠ 0 ∧ q = p := by
  by_cases identity : p = 0 <;> simp [pointOf, identity, eq_comm]

theorem Init.validate_ok {init : Init Scalar Point} (valid : init.validate S = .ok ()) :
    verifyPossession S init.A init.popA = true ∧ init.Sa ≠ 0 ∧ init.Ra ≠ 0 ∧ init.T = init.Sa := by
  simp only [Init.validate, bind_ok, reject_ok, pointOf_ok] at valid
  obtain ⟨_, -, _, possession, _, ⟨share, -⟩, _, ⟨nonce, -⟩, _, bound, -⟩ := valid
  exact ⟨by simpa using possession, share, nonce, by simpa using bound⟩

omit [CommRing Scalar] in
theorem jointKeys_ok {init : Init Scalar Point} {mc : MakerCommit Scalar Point}
    {keys : Point × Point × Point} (joint : jointKeys init mc = .ok keys) :
    mc.Rb ≠ 0 ∧ keys = (init.A + mc.B, init.Ra + mc.Rb, init.Sa + mc.Sb) := by
  simp only [jointKeys, bind_ok, pointOf_ok, pure_ok] at joint
  obtain ⟨A, ⟨-, rfl⟩, B, ⟨-, rfl⟩, Ra, ⟨-, rfl⟩, Rb, ⟨proper, rfl⟩, rfl⟩ := joint
  exact ⟨proper, rfl⟩

/-- A handshake changes nothing, takes the message in and fails, or agrees. -/
theorem handleInit_cases {m : Maker Scalar Point} (holds : m.HoldsShares) (k : Scalar)
    (init : Init Scalar Point) :
    (∃ error, (m.handleInit S k init).1 = .error error ∧ Moves S m (m.handleInit S k init).2 ∧
      (m.handleInit S k init).2.st = m.st) ∨
    ∃ mc, m.handleInit S k init = (.ok mc, m.agree S init) ∧ Opens S m init ∧
      mc = { swapID := m.st.swapID, B := S.base m.b, Sb := S.base m.sB
             popB := provePossession S k m.b, Rb := S.base (m.st.nonce S) } := by
  obtain ⟨claim, xno⟩ := holds
  simp only [handleInit]
  split_ifs with swapID amounts fee
  · exact .inl ⟨_, rfl, .stay, rfl⟩
  · exact .inl ⟨_, rfl, .stay, rfl⟩
  · exact .inl ⟨_, rfl, .stay, rfl⟩
  cases valid : init.validate S with
  | error error => exact .inl ⟨_, rfl, .stay, rfl⟩
  | ok done =>
    obtain ⟨possession, share, nonce, bound⟩ := Init.validate_ok S valid
    have own : sessionNonce S m.st.swapID m.b m.sB m.st.obxAmount m.st.xnoAmount =
        m.st.nonce S := by
      rw [SwapState.nonce, claim, xno]
    rw [own]
    dsimp only
    cases joint : jointKeys init
        { swapID := m.st.swapID, B := S.base m.b, Sb := S.base m.sB,
          popB := provePossession S k m.b, Rb := S.base (m.st.nonce S) } with
    | error error => exact .inl ⟨_, rfl, .hear init, rfl⟩
    | ok keys =>
      obtain ⟨ownNonce, rfl⟩ := jointKeys_ok joint
      refine .inr ⟨_, ?_, ⟨possession, share, nonce, bound, ownNonce⟩, rfl⟩
      simp only [Prod.mk.injEq, true_and]
      rw [agree, claim, xno]

/-- The maker after its OBX is locked under `swapKey`. -/
def fundedAs (m : Maker Scalar Point) (swapKey : Bytes) (unlockHeight : UInt64) :
    Maker Scalar Point :=
  { m with st := { m.st with swapKey := some swapKey, unlockHeight, phase := .funded } }

/-- The maker after the taker's lock is confirmed. -/
def lockedAs (m : Maker Scalar Point) (lockID : String) : Maker Scalar Point :=
  { m with st := { m.st with xnoLockID := lockID, phase := .xnoLock } }

omit [DecidableEq Point] in
theorem fund_cases (m : Maker Scalar Point) (k : Scalar) (height : UInt64) (swapKey : Bytes)
    (fundSwapOut : FundArgs Scalar Point → Except String Unit) (unlockHeight : UInt64) :
    (∃ error, m.fund S k height swapKey fundSwapOut unlockHeight = (.error error, m)) ∨
    ∃ init agreed T, m.init = some init ∧ m.st.agreed = some agreed ∧ m.st.adaptorT = some T ∧
      ¬ unlockHeight < minUnlock height ∧
      fundSwapOut (m.fundArgs S k swapKey unlockHeight init agreed T) = .ok () ∧
      m.fund S k height swapKey fundSwapOut unlockHeight =
        (.ok { swapID := m.st.swapID, swapKey, unlockHeight }, m.fundedAs swapKey unlockHeight) := by
  rw [fund]
  split
  · exact .inl ⟨_, rfl⟩
  rename_i init opened
  split_ifs with window
  · exact .inl ⟨_, rfl⟩
  split
  · rename_i agreed T known adaptor
    split
    · exact .inl ⟨_, rfl⟩
    · rename_i locked
      exact .inr ⟨init, agreed, T, opened, known, adaptor, window, locked, rfl⟩
  · exact .inl ⟨_, rfl⟩

omit [CommRing Scalar] [AddCommGroup Point] in
theorem confirmXNOLock_cases (m : Maker Scalar Point) (nano : XNOView Point) (msg : XNOLocked) :
    (∃ error, m.confirmXNOLock nano msg = (.error error, m)) ∨
    ∃ agreed, m.st.agreed = some agreed ∧ m.st.phase = .funded ∧
      nano.lockInfo msg.lockID = .ok (m.st.xnoAmount, agreed.xnoAccountPub) ∧
      m.confirmXNOLock nano msg = (.ok (), m.lockedAs msg.lockID) := by
  rw [confirmXNOLock]
  split_ifs with swapID phase confirmed
  · exact .inl ⟨_, rfl⟩
  · exact .inl ⟨_, rfl⟩
  · exact .inl ⟨_, rfl⟩
  split
  · exact .inl ⟨_, rfl⟩
  rename_i amount accountPub info
  split_ifs with account agreedAmount
  · exact .inl ⟨_, rfl⟩
  · exact .inl ⟨_, rfl⟩
  simp only [ne_eq, not_not, Option.map_eq_some_iff] at account
  obtain ⟨agreed, known, rfl⟩ := account
  obtain rfl : amount = m.st.xnoAmount := not_not.mp agreedAmount
  exact .inr ⟨agreed, known, not_not.mp phase, info, rfl⟩

omit [DecidableEq Point] in
theorem fund_moves (m : Maker Scalar Point) (k : Scalar) (height : UInt64) (swapKey : Bytes)
    (fundSwapOut : FundArgs Scalar Point → Except String Unit) (unlockHeight : UInt64) :
    Moves S m (m.fund S k height swapKey fundSwapOut unlockHeight).2 := by
  obtain ⟨error, failed⟩ | ⟨init, agreed, T, -, -, -, -, -, funded⟩ :=
    m.fund_cases S k height swapKey fundSwapOut unlockHeight
  · rw [failed]
    exact .stay
  · rw [funded]
    exact .progress (some swapKey) unlockHeight .funded m.st.xnoLockID

theorem confirmXNOLock_moves (m : Maker Scalar Point) (nano : XNOView Point) (msg : XNOLocked) :
    Moves S m (m.confirmXNOLock nano msg).2 := by
  obtain ⟨error, failed⟩ | ⟨agreed, -, -, -, confirmed⟩ := m.confirmXNOLock_cases nano msg
  · rw [failed]
    exact .stay
  · rw [confirmed]
    exact .progress m.st.swapKey m.st.unlockHeight .xnoLock msg.lockID

/-- A co-signature was given for one request at most, for a half that verifies. -/
structure CoSigns (m : Maker Scalar Point) (req : ClaimRequest Scalar)
    (presig : ClaimPreSig Scalar) : Prop where
  locked : m.st.xnoLockID ≠ ""
  single : m.st.coSignedCoreHash = [] ∨ m.st.coSignedCoreHash = req.coreHash
  half : m.verifyTakerHalf S req.takerHalf req.coreHash = some true
  own : m.preResponseHalf S req.coreHash = some presig.sb

/-- What a request for a half does. -/
theorem coSignClaim_cases (m : Maker Scalar Point) (req : ClaimRequest Scalar) :
    (∃ error, m.coSignClaim S req = (.error error, m)) ∨
    ∃ presig, m.coSignClaim S req = (.ok presig, m.record req) ∧ CoSigns S m req presig := by
  rw [coSignClaim]
  split_ifs with swapID lock second
  · exact .inl ⟨_, rfl⟩
  · exact .inl ⟨_, rfl⟩
  · exact .inl ⟨_, rfl⟩
  split
  · rename_i sb verified own
    refine .inr ⟨_, rfl, lock, ?_, verified, own⟩
    by_cases empty : m.st.coSignedCoreHash = []
    · exact .inl empty
    · exact .inr (by_contra fun different => second ⟨empty, different⟩)
  · exact .inl ⟨_, rfl⟩
  · exact .inl ⟨_, rfl⟩

/-- A request that is granted. -/
theorem coSignClaim_eq {m : Maker Scalar Point} {req : ClaimRequest Scalar} {sb : Scalar}
    (session : req.swapID = m.st.swapID) (locked : m.st.xnoLockID ≠ "")
    (single : m.st.coSignedCoreHash = [] ∨ m.st.coSignedCoreHash = req.coreHash)
    (half : m.verifyTakerHalf S req.takerHalf req.coreHash = some true)
    (own : m.preResponseHalf S req.coreHash = some sb) :
    m.coSignClaim S req = (.ok { swapID := m.st.swapID, sb }, m.record req) := by
  have guard : ¬ (m.st.coSignedCoreHash ≠ [] ∧ m.st.coSignedCoreHash ≠ req.coreHash) := by
    rcases single with empty | same
    · exact fun both => both.1 empty
    · exact fun both => both.2 same
  rw [coSignClaim, if_neg (not_not.mpr session), if_neg locked, if_neg guard, half, own]
  rfl

/-- The maker in another phase. -/
def inPhase (m : Maker Scalar Point) (phase : Phase) : Maker Scalar Point :=
  { m with st := { m.st with phase } }

omit [DecidableEq Point] in
theorem inPhase_moves (m : Maker Scalar Point) (phase : Phase) : Moves S m (m.inPhase phase) :=
  .progress m.st.swapKey m.st.unlockHeight phase m.st.xnoLockID

theorem finishSweep_phase (m : Maker Scalar Point) (sweep : Sweep Scalar) (recovered : Scalar) :
    ∃ phase, (m.finishSweep S sweep recovered).2 = m.inPhase phase := by
  simp only [finishSweep]
  split_ifs with share account
  · exact ⟨m.st.phase, rfl⟩
  · exact ⟨m.st.phase, rfl⟩
  split
  · exact ⟨.claimed, rfl⟩
  · exact ⟨.swept, rfl⟩

theorem sweepXNO_phase (m : Maker Scalar Point) (sweep : Sweep Scalar)
    (presig : AdaptorSig Scalar Point) (fullSig : FullSig Scalar Point) :
    ∃ phase, (m.sweepXNO S sweep presig fullSig).2 = m.inPhase phase := by
  rw [sweepXNO]
  split_ifs with phase
  · exact ⟨m.st.phase, rfl⟩
  · exact m.finishSweep_phase S sweep _

theorem sweepXNOIndependent_phase (m : Maker Scalar Point) (sweep : Sweep Scalar)
    (fullSig : FullSig Scalar Point) :
    ∃ phase, (m.sweepXNOIndependent S sweep fullSig).2 = m.inPhase phase := by
  rw [sweepXNOIndependent]
  split_ifs with phase
  · exact ⟨m.st.phase, rfl⟩
  cases m.recoverSecret S fullSig with
  | error error => exact ⟨m.st.phase, rfl⟩
  | ok recovered => exact m.finishSweep_phase S sweep recovered

omit [CommRing Scalar] [AddCommGroup Point] [DecidableEq Point] in
theorem refund_phase (m : Maker Scalar Point)
    (mineRefund : Bytes → UInt64 → UInt64 → UInt64 → Except String Unit) :
    ∃ phase, (m.refund mineRefund).2 = m.inPhase phase := by
  rw [refund]
  split
  · exact ⟨m.st.phase, rfl⟩
  split_ifs with settled
  · exact ⟨m.st.phase, rfl⟩
  split
  · exact ⟨m.st.phase, rfl⟩
  · exact ⟨.refunded, rfl⟩

end Maker

/-! ## Runs -/

/-- One signature half a party has handed out. -/
structure Released (Scalar : Type) where
  nonce : Scalar
  challenge : Scalar
  response : Scalar
deriving DecidableEq

/-- A maker with the states it saved and the halves it released. -/
structure MakerLog (Scalar Point : Type) where
  maker : Maker Scalar Point
  saved : List (SwapState Scalar Point) := []
  released : List (Released Scalar) := []

/-- What a maker is asked, with the nonces and the chain's answers. -/
inductive MakerOp (Scalar Point : Type) where
  | handleInit (k : Scalar) (init : Init Scalar Point)
  | fund (k : Scalar) (height : UInt64) (swapKey : Bytes)
      (fundSwapOut : Maker.FundArgs Scalar Point → Except String Unit) (unlockHeight : UInt64)
  | confirmXNOLock (nano : Maker.XNOView Point) (msg : XNOLocked)
  | coSignClaim (req : ClaimRequest Scalar)
  | sweepXNO (sweep : Maker.Sweep Scalar) (presig : AdaptorSig Scalar Point)
      (fullSig : FullSig Scalar Point)
  | sweepXNOIndependent (sweep : Maker.Sweep Scalar) (fullSig : FullSig Scalar Point)
  | refund (mineRefund : Bytes → UInt64 → UInt64 → UInt64 → Except String Unit)
  | save
  /-- Resume from the state saved at this position. -/
  | resume (position : Nat)

/-- The half an answered co-signature hands out. -/
def Maker.releases (m : Maker Scalar Point) (req : ClaimRequest Scalar) :
    List (Released Scalar) :=
  match (m.coSignClaim S req).1, m.rb, m.st.challenge S req.coreHash with
  | .ok presig, some nonce, some challenge => [{ nonce, challenge, response := presig.sb }]
  | _, _, _ => []

namespace MakerLog

/-- The maker after one call, with the halves that it has signed. -/
def step (log : MakerLog Scalar Point) : MakerOp Scalar Point → MakerLog Scalar Point
  | .handleInit k init => { log with maker := (log.maker.handleInit S k init).2 }
  | .fund k height swapKey fundSwapOut unlockHeight =>
    { log with maker := (log.maker.fund S k height swapKey fundSwapOut unlockHeight).2 }
  | .confirmXNOLock nano msg => { log with maker := (log.maker.confirmXNOLock nano msg).2 }
  | .coSignClaim req =>
    { log with
      maker := (log.maker.coSignClaim S req).2
      released := log.released ++ log.maker.releases S req }
  | .sweepXNO sweep presig fullSig =>
    { log with maker := (log.maker.sweepXNO S sweep presig fullSig).2 }
  | .sweepXNOIndependent sweep fullSig =>
    { log with maker := (log.maker.sweepXNOIndependent S sweep fullSig).2 }
  | .refund mineRefund => { log with maker := (log.maker.refund mineRefund).2 }
  | .save => { log with saved := log.saved ++ [log.maker.st] }
  | .resume position =>
    match log.saved[position]? with
    | none => log
    | some st =>
      match resumeMaker S st with
      | .error _ => log
      | .ok maker => { log with maker }

/-- The maker after a list of calls. -/
def run (log : MakerLog Scalar Point) (ops : List (MakerOp Scalar Point)) : MakerLog Scalar Point :=
  ops.foldl (step S) log

end MakerLog

/-! ## Coherence of the joint keys -/

/-- The agreed keys are the sums of the peer's points and the owner's. -/
structure SwapState.JointKeys (st : SwapState Scalar Point) (agreed : Agreed Point) : Prop where
  claimKey : agreed.claimKey = agreed.peerClaimShare + S.base st.ownShareClaim
  aggNonceR : agreed.aggNonceR = agreed.peerNonceR + S.base (st.nonce S)
  account : agreed.xnoAccountPub = agreed.peerXNOShare + S.base st.ownShareXNO
  adaptor : st.adaptorT = some agreed.peerXNOShare

/-- A maker's session state, of the session that started as `origin`. -/
structure SwapState.Coherent (st origin : SwapState Scalar Point) : Prop where
  same : st.identity = origin.identity
  joint : ∀ agreed, st.agreed = some agreed → st.JointKeys S agreed

/-- A maker's fields agree with its state, and its state with the one it began from. -/
structure Maker.Coherent (origin : SwapState Scalar Point) (m : Maker Scalar Point) : Prop where
  state : m.st.Coherent S origin
  holds : m.HoldsShares
  nonce : m.rb = none ∨ m.rb = some (origin.nonce S)
  agreedNonce : m.st.agreed.isSome → m.rb = some (origin.nonce S)

namespace Maker.Coherent

variable {S} {origin : SwapState Scalar Point} {m next : Maker Scalar Point}

omit [DecidableEq Point]

theorem ownNonce (coherent : m.Coherent S origin) : m.st.nonce S = origin.nonce S :=
  SwapState.nonce_of_identity S coherent.state.same

/-- An operation keeps the shares and the coherence of the keys. -/
theorem moves (coherent : m.Coherent S origin) (moves : Moves S m next) :
    next.Coherent S origin := by
  cases moves with
  | stay => exact coherent
  | hear init =>
    have own : some (m.st.nonce S) = some (origin.nonce S) := by rw [coherent.ownNonce]
    exact ⟨coherent.state, coherent.holds, .inr own, fun _ => own⟩
  | agree init bound =>
    have own : some (m.st.nonce S) = some (origin.nonce S) := by rw [coherent.ownNonce]
    refine ⟨⟨coherent.state.same, ?_⟩, coherent.holds, .inr own, fun _ => own⟩
    intro agreed same
    obtain rfl := Option.some.inj same
    exact ⟨rfl, rfl, rfl, congrArg some bound⟩
  | progress swapKey unlockHeight phase lockID =>
    exact ⟨⟨coherent.state.same, fun agreed same =>
      ⟨(coherent.state.joint agreed same).claimKey, (coherent.state.joint agreed same).aggNonceR,
        (coherent.state.joint agreed same).account, (coherent.state.joint agreed same).adaptor⟩⟩,
      coherent.holds, coherent.nonce, coherent.agreedNonce⟩
  | coSign req =>
    exact ⟨⟨coherent.state.same, fun agreed same =>
      ⟨(coherent.state.joint agreed same).claimKey, (coherent.state.joint agreed same).aggNonceR,
        (coherent.state.joint agreed same).account, (coherent.state.joint agreed same).adaptor⟩⟩,
      coherent.holds, coherent.nonce, coherent.agreedNonce⟩

theorem resume {st : SwapState Scalar Point} (saved : st.Coherent S origin)
    (resumed : resumeMaker S st = .ok m) : m.Coherent S origin ∧ m.st = st := by
  rw [resumeMaker] at resumed
  split_ifs at resumed with role
  obtain rfl := Except.ok.inj resumed
  have own : some (st.nonce S) = some (origin.nonce S) := by
    rw [SwapState.nonce_of_identity S saved.same]
  exact ⟨⟨saved, ⟨rfl, rfl⟩, .inr own, fun _ => own⟩, rfl⟩

/-- What a half that verifies says about the keys. -/
theorem verified (coherent : m.Coherent S origin) [DecidableEq Point] {half : Scalar}
    {coreHash : Bytes} (accepted : m.verifyTakerHalf S half coreHash = some true) :
    ∃ agreed T challenge, m.st.agreed = some agreed ∧ m.st.adaptorT = some T ∧
      m.st.challenge S coreHash = some challenge ∧ m.rb = some (origin.nonce S) ∧
      challenge = adaptorChallenge S (agreed.aggNonceR + T) agreed.claimKey coreHash ∧
      m.st.JointKeys S agreed ∧
      S.Answers challenge agreed.peerNonceR agreed.peerClaimShare half := by
  simp only [verifyTakerHalf, Option.bind_eq_bind, Option.pure_def, Option.bind_eq_some_iff,
    Option.some.injEq] at accepted
  obtain ⟨agreed, known, challenge, challenged, answers⟩ := accepted
  have joint := coherent.state.joint agreed known
  refine ⟨agreed, agreed.peerXNOShare, challenge, known, joint.adaptor, challenged,
    coherent.agreedNonce (by rw [known]; rfl), ?_, joint, by simpa [Curve.Answers] using answers⟩
  simp only [SwapState.challenge, known, joint.adaptor, Option.bind_eq_bind, Option.bind_some,
    Option.pure_def, Option.some.injEq] at challenged
  exact challenged.symm

end Maker.Coherent

/-- Everything a maker holds or has saved belongs to one session. -/
structure MakerLog.Coherent (origin : SwapState Scalar Point) (log : MakerLog Scalar Point) :
    Prop where
  maker : log.maker.Coherent S origin
  saved : ∀ st ∈ log.saved, st.Coherent S origin

namespace MakerLog

variable {S} {origin : SwapState Scalar Point} {log : MakerLog Scalar Point}

omit [DecidableEq Point] in
theorem start_coherent (b sB : Scalar) (swapID : Bytes) (obxAmount : UInt64) (xnoAmount : Nat)
    (fee : UInt64) (sweepDest : String) :
    let maker : Maker Scalar Point := newMaker b sB swapID obxAmount xnoAmount fee sweepDest
    MakerLog.Coherent S maker.st { maker } where
  maker := ⟨⟨rfl, fun _ absurd => nomatch absurd⟩, ⟨rfl, rfl⟩, .inl rfl, fun absurd => nomatch absurd⟩
  saved := fun _ absurd => nomatch absurd

/-- Every operation other than saving and resuming moves the maker. -/
theorem step_coherent (coherent : log.Coherent S origin) (op : MakerOp Scalar Point) :
    (log.step S op).Coherent S origin := by
  obtain ⟨maker, saved⟩ := coherent
  cases op with
  | handleInit k init =>
    refine ⟨?_, saved⟩
    obtain ⟨error, -, moves, -⟩ | ⟨mc, agreed, opens, -⟩ :=
      Maker.handleInit_cases S maker.holds k init
    · exact maker.moves moves
    · simp only [step, agreed]
      exact maker.moves (.agree init opens.bound)
  | fund k height swapKey fundSwapOut unlockHeight =>
    exact ⟨maker.moves (Maker.fund_moves S _ _ _ _ _ _), saved⟩
  | confirmXNOLock nano msg => exact ⟨maker.moves (Maker.confirmXNOLock_moves S _ _ _), saved⟩
  | coSignClaim req =>
    refine ⟨?_, saved⟩
    obtain ⟨error, refused⟩ | ⟨presig, signed, -⟩ := log.maker.coSignClaim_cases S req
    · simpa only [step, refused] using maker
    · simp only [step, signed]
      exact maker.moves (.coSign req)
  | sweepXNO sweep presig fullSig =>
    obtain ⟨phase, settled⟩ := log.maker.sweepXNO_phase S sweep presig fullSig
    simp only [step, settled]
    exact ⟨maker.moves (Maker.inPhase_moves S _ _), saved⟩
  | sweepXNOIndependent sweep fullSig =>
    obtain ⟨phase, settled⟩ := log.maker.sweepXNOIndependent_phase S sweep fullSig
    simp only [step, settled]
    exact ⟨maker.moves (Maker.inPhase_moves S _ _), saved⟩
  | refund mineRefund =>
    obtain ⟨phase, settled⟩ := log.maker.refund_phase mineRefund
    simp only [step, settled]
    exact ⟨maker.moves (Maker.inPhase_moves S _ _), saved⟩
  | save =>
    refine ⟨maker, fun st member => ?_⟩
    rcases List.mem_append.mp member with old | new
    · exact saved st old
    · obtain rfl := List.mem_singleton.mp new
      exact maker.state
  | resume position =>
    simp only [step]
    split
    · exact ⟨maker, saved⟩
    · rename_i st found
      split
      · exact ⟨maker, saved⟩
      · rename_i resumed result
        exact ⟨(Maker.Coherent.resume (saved st (List.mem_of_getElem? found)) result).1, saved⟩

theorem run_coherent (coherent : log.Coherent S origin) (ops : List (MakerOp Scalar Point)) :
    (log.run S ops).Coherent S origin := by
  induction ops generalizing log with
  | nil => exact coherent
  | cons op ops ih => exact ih (step_coherent coherent op)

end MakerLog

end Obscura.Swap
