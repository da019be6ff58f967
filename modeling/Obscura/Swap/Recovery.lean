import Obscura.Lib.Numerals
import Mathlib.Data.ZMod.Basic
import Obscura.Swap.TakerRun

/-! # What a mined claim reveals to the maker

Once a maker has co-signed a claim, every signature the claim path can accept
for the co-signed core hash hands it the taker's XNO share: the stored halves
and the published response determine a scalar that passes both checks of the
sweep. In an honest run the aggregate pre-signature verifies and adapts to a
valid claim, unless the two claim shares cancel.
-/

namespace Obscura.Swap

open Wire Checked Schnorr Tx Numerals

variable {Scalar Point : Type} [CommRing Scalar] [AddCommGroup Point] [DecidableEq Point]
variable {S : Suite Scalar Point}

namespace Maker

/-- A maker with a co-signature on record whose taker half verifies under the
keys it holds. -/
structure Signed (S : Suite Scalar Point) (origin : SwapState Scalar Point)
    (m : Maker Scalar Point) (half : Scalar) : Prop where
  coherent : m.Coherent S origin
  hash : m.st.coSignedCoreHash ≠ []
  stored : m.st.peerClaimHalf = some half
  verified : m.verifyTakerHalf S half m.st.coSignedCoreHash = some true

theorem Signed.of_coSignClaim {origin : SwapState Scalar Point} {m next : Maker Scalar Point}
    {req : ClaimRequest Scalar} {presig : ClaimPreSig Scalar} (coherent : m.Coherent S origin)
    (valid : req.validate = .ok ()) (signed : m.coSignClaim S req = (.ok presig, next)) :
    Signed S origin next req.takerHalf := by
  obtain ⟨error, refused⟩ | ⟨given, granted, signs⟩ := m.coSignClaim_cases S req
  · rw [refused] at signed
    cases signed
  · rw [granted] at signed
    obtain ⟨-, rfl⟩ := Prod.mk.inj signed
    refine ⟨coherent.moves (.coSign req), ?_, rfl, signs.half⟩
    simpa [ClaimRequest.validate, record] using valid

theorem Signed.aggregate {origin : SwapState Scalar Point} {m : Maker Scalar Point} {half : Scalar}
    (signed : Signed S origin m half) :
    ∃ agreed own, m.st.agreed = some agreed ∧ m.st.adaptorT = some agreed.peerXNOShare ∧
      m.st.JointKeys S agreed ∧ m.preResponseHalf S m.st.coSignedCoreHash = some own ∧
      S.Answers (adaptorChallenge S (agreed.aggNonceR + agreed.peerXNOShare) agreed.claimKey
        m.st.coSignedCoreHash) agreed.aggNonceR agreed.claimKey (half + own) := by
  obtain ⟨agreed, T, challenge, known, adaptor, challenged, nonce, bound, joint, answers⟩ :=
    signed.coherent.verified signed.verified
  obtain rfl : T = agreed.peerXNOShare :=
    Option.some.inj (adaptor.symm.trans joint.adaptor)
  refine ⟨agreed, respond (origin.nonce S) challenge m.b, known, adaptor, joint, ?_, ?_⟩
  · simp only [preResponseHalf, challenged, nonce, Option.bind_eq_bind, Option.bind_some,
      Option.pure_def, respond]
  · have own := S.answers_respond (origin.nonce S) challenge m.b
    have sum := answers.add own
    rw [← bound]
    rwa [← signed.coherent.ownNonce, ← joint.aggNonceR, signed.coherent.ownNonce,
      signed.coherent.holds.1, ← joint.claimKey, ← signed.coherent.holds.1] at sum

theorem Signed.recovers {origin : SwapState Scalar Point} {m : Maker Scalar Point} {half : Scalar}
    (signed : Signed S origin m half) {agreed : Agreed Point} {T : Point}
    {sig : FullSig Scalar Point} (known : m.st.agreed = some agreed)
    (adaptor : m.st.adaptorT = some T) (bound : claimBindingOK sig.R agreed.aggNonceR T = true)
    (verified : verifyFull S agreed.claimKey m.st.coSignedCoreHash sig = true) :
    ∃ secret, m.recoverSecret S sig = .ok secret ∧ S.base secret = agreed.peerXNOShare ∧
      S.base (secret + m.sB) = agreed.xnoAccountPub := by
  obtain ⟨agreed', own, known', adaptor', joint, response, answers⟩ := signed.aggregate
  obtain rfl : agreed' = agreed := Option.some.inj (known'.symm.trans known)
  obtain rfl : T = agreed'.peerXNOShare := Option.some.inj (adaptor.symm.trans adaptor')
  obtain ⟨-, nonce⟩ := claimBindingOK_iff.mp bound
  have revealed := base_extract S ⟨agreed'.aggNonceR, half + own⟩ answers nonce verified
  refine ⟨sig.s - half - own, ?_, ?_, ?_⟩
  · simp only [recoverSecret, signed.stored, if_neg signed.hash, response]
  · rw [sub_sub]
    exact revealed
  · rw [map_add, sub_sub, joint.account, signed.coherent.holds.2]
    exact congrArg (· + _) revealed

theorem sweepXNOIndependent_of_recovered {m : Maker Scalar Point} {sig : FullSig Scalar Point}
    {secret : Scalar} {agreed : Agreed Point} (phase : m.st.phase = .xnoLock)
    (known : m.st.agreed = some agreed) (recovered : m.recoverSecret S sig = .ok secret)
    (share : S.base secret = agreed.peerXNOShare)
    (account : S.base (secret + m.sB) = agreed.xnoAccountPub) (sweep : Sweep Scalar) :
    (m.sweepXNOIndependent S sweep sig).1 = .ok () ↔
      sweep m.st.xnoLockID (secret + m.sB) m.st.sweepDest = .ok () := by
  simp only [sweepXNOIndependent, phase, ne_eq, not_true_eq_false, if_false, recovered,
    finishSweep, known, Option.map_some, share, account]
  cases sweep m.st.xnoLockID (secret + m.sB) m.st.sweepDest <;> simp

end Maker

/-! ## Honest runs -/

/-- A run in which both parties follow the protocol up to the claim request and
every check on the way passes. -/
structure HonestRun (S : Suite Scalar Point) where
  a : Scalar
  sA : Scalar
  b : Scalar
  sB : Scalar
  swapID : Bytes
  obxAmount : UInt64
  xnoAmount : Nat
  fee : UInt64
  sweepDest : String
  openingProof : Scalar
  commitProof : Scalar
  replyProof : Scalar
  commit : MakerCommit Scalar Point
  maker : Maker Scalar Point
  opens : (newMaker b sB swapID obxAmount xnoAmount fee sweepDest).handleInit S commitProof
    ((newTaker S a sA swapID obxAmount xnoAmount fee).opening S openingProof) = (.ok commit, maker)
  taker : Taker Scalar Point
  replies : (newTaker S a sA swapID obxAmount xnoAmount fee).handleMakerCommit S replyProof commit =
    (.ok (), taker)
  fundProof : Scalar
  fundHeight : UInt64
  swapKey : Bytes
  fundSwapOut : Maker.FundArgs Scalar Point → Except String Unit
  unlockHeight : UInt64
  funded : Funded
  fundedMaker : Maker Scalar Point
  funds : maker.fund S fundProof fundHeight swapKey fundSwapOut unlockHeight =
    (.ok funded, fundedMaker)
  view : Taker.ChainView Point
  lock : Taker.Lock Point
  locked : XNOLocked
  lockedTaker : Taker Scalar Point
  locks : taker.verifyFundedAndLock view lock funded = (.ok locked, lockedTaker)
  /-- The ledger names its locks. -/
  named : locked.lockID ≠ ""
  nano : Maker.XNOView Point
  lockedMaker : Maker Scalar Point
  confirms : fundedMaker.confirmXNOLock nano locked = (.ok (), lockedMaker)
  claimTx : Transaction
  coreHash : Bytes
  request : ClaimRequest Scalar
  claimer : Taker Scalar Point
  requests : lockedTaker.buildClaimRequest S (.ok (claimTx, coreHash)) = (.ok request, claimer)

namespace HonestRun

variable (run : HonestRun S)

/-- The nonce of the taker. -/
def ra : Scalar := sessionNonce S run.swapID run.a run.sA run.obxAmount run.xnoAmount

/-- The nonce of the maker. -/
def rb : Scalar := sessionNonce S run.swapID run.b run.sB run.obxAmount run.xnoAmount

/-- The joint claim key. -/
def K : Point := S.base run.a + S.base run.b

/-- The joint nonce. -/
def R : Point := S.base run.ra + S.base run.rb

/-- The challenge of the claim. -/
def challenge : Scalar :=
  adaptorChallenge S (run.R + S.base run.sA) run.K run.coreHash

/-- The aggregate pre-signature of the two halves. -/
def presignature : AdaptorSig Scalar Point where
  R := run.R
  s := respond run.ra run.challenge run.a + respond run.rb run.challenge run.b

/-- The maker's answer to the opening message. -/
theorem commit_eq : run.maker = (newMaker run.b run.sB run.swapID run.obxAmount run.xnoAmount
      run.fee run.sweepDest).agree S
        ((newTaker S run.a run.sA run.swapID run.obxAmount run.xnoAmount run.fee).opening S
          run.openingProof) ∧
    run.commit = { swapID := run.swapID, B := S.base run.b, Sb := S.base run.sB
                   popB := provePossession S run.commitProof run.b, Rb := S.base run.rb } ∧
    S.base run.sA ≠ 0 := by
  obtain ⟨error, failed, -⟩ | ⟨mc, agreed, openings, rfl⟩ := Maker.handleInit_cases S
    (m := newMaker run.b run.sB run.swapID run.obxAmount run.xnoAmount run.fee run.sweepDest)
    ⟨rfl, rfl⟩ run.commitProof
    ((newTaker S run.a run.sA run.swapID run.obxAmount run.xnoAmount run.fee).opening S
      run.openingProof)
  · rw [run.opens] at failed
    cases failed
  · rw [run.opens] at agreed
    obtain ⟨committed, maker⟩ := Prod.mk.inj agreed
    refine ⟨maker, ?_, openings.share⟩
    exact Except.ok.inj committed

theorem lockedMaker_eq : run.lockedMaker =
    (run.maker.fundedAs run.swapKey run.unlockHeight).lockedAs run.locked.lockID := by
  obtain ⟨error, failed⟩ | ⟨init, agreed, T, -, -, -, -, -, funded⟩ :=
    run.maker.fund_cases S run.fundProof run.fundHeight run.swapKey run.fundSwapOut run.unlockHeight
  · rw [run.funds] at failed
    cases failed
  rw [run.funds] at funded
  obtain ⟨-, maker⟩ := Prod.mk.inj funded
  obtain ⟨error, failed⟩ | ⟨agreed, -, -, -, confirmed⟩ :=
    run.fundedMaker.confirmXNOLock_cases run.nano run.locked
  · rw [run.confirms] at failed
    cases failed
  · rw [run.confirms, maker] at confirmed
    exact (Prod.mk.inj confirmed).2

theorem taker_eq : run.taker =
    (newTaker S run.a run.sA run.swapID run.obxAmount run.xnoAmount run.fee).agree S run.commit := by
  obtain ⟨error, failed⟩ | ⟨error, failed⟩ | ⟨accepted, -⟩ := Taker.handleMakerCommit_cases S
    (newTaker S run.a run.sA run.swapID run.obxAmount run.xnoAmount run.fee) run.replyProof
    run.commit
  · rw [run.replies] at failed
    cases failed
  · rw [run.replies] at failed
    cases failed
  · rw [run.replies] at accepted
    exact (Prod.mk.inj accepted).2

theorem request_eq :
    run.request = { swapID := run.swapID, coreHash := run.coreHash
                    takerHalf := respond run.ra run.challenge run.a } ∧
    ∃ lockID, run.claimer = { run.taker.lockedAs run.funded lockID with
      claimTx := some run.claimTx, coreHash := run.coreHash } := by
  have committed := run.commit_eq.2.1
  obtain ⟨error, failed⟩ | ⟨amount, account, lockID, -, -, locked⟩ :=
    run.taker.verifyFundedAndLock_cases run.view run.lock run.funded
  · rw [run.locks] at failed
    cases failed
  rw [run.locks] at locked
  obtain ⟨-, lockedTaker⟩ := Prod.mk.inj locked
  obtain ⟨error, failed⟩ | ⟨claimTx, coreHash, built, claimer, ⟨error, failed⟩ |
    ⟨challenge, challenged, requested⟩⟩ :=
    run.lockedTaker.buildClaimRequest_cases S (.ok (run.claimTx, run.coreHash))
  · rw [run.requests] at failed
    cases failed
  · rw [run.requests] at failed
    cases failed
  obtain ⟨rfl, rfl⟩ := Prod.mk.inj (Except.ok.inj built)
  rw [run.requests] at claimer requested
  refine ⟨?_, lockID, by rw [← lockedTaker]; exact claimer⟩
  have known : challenge = run.challenge := by
    rw [lockedTaker, run.taker_eq, committed] at challenged
    exact (Option.some.inj challenged).symm
  rw [Except.ok.inj requested, lockedTaker, run.taker_eq, known]
  rfl

theorem preVerify_presignature :
    preVerify S run.K run.coreHash (S.base run.sA) run.presignature = true := by
  refine (preVerify_iff S).mpr ⟨run.commit_eq.2.2, ?_⟩
  exact (S.answers_respond run.ra run.challenge run.a).add
    (S.answers_respond run.rb run.challenge run.b)

/-- The maker co-signs the request and hands out its own half. -/
theorem coSigns : ∃ presig, run.lockedMaker.coSignClaim S run.request =
      (.ok presig, run.lockedMaker.record run.request) ∧
    presig = { swapID := run.swapID, sb := respond run.rb run.challenge run.b } := by
  have challenged : run.lockedMaker.st.challenge S run.coreHash = some run.challenge := by
    rw [run.lockedMaker_eq, run.commit_eq.1]
    rfl
  have half : run.lockedMaker.verifyTakerHalf S (respond run.ra run.challenge run.a) run.coreHash =
      some true := by
    have answers := S.answers_respond run.ra run.challenge run.a
    simp only [Maker.verifyTakerHalf, challenged]
    rw [run.lockedMaker_eq, run.commit_eq.1]
    simpa [Maker.lockedAs, Maker.fundedAs, Maker.agree, Taker.opening, newTaker, Curve.Answers,
      HonestRun.ra] using answers
  have own : run.lockedMaker.preResponseHalf S run.coreHash =
      some (respond run.rb run.challenge run.b) := by
    simp only [Maker.preResponseHalf, challenged]
    rw [run.lockedMaker_eq, run.commit_eq.1]
    rfl
  have session : run.lockedMaker.st.swapID = run.swapID := by
    rw [run.lockedMaker_eq, run.commit_eq.1]
    rfl
  have fresh : run.lockedMaker.st.coSignedCoreHash = [] := by
    rw [run.lockedMaker_eq, run.commit_eq.1]
    rfl
  have locked : run.lockedMaker.st.xnoLockID ≠ "" := by
    rw [run.lockedMaker_eq]
    exact run.named
  refine ⟨_, ?_, rfl⟩
  rw [run.request_eq.1, ← session]
  exact Maker.coSignClaim_eq S rfl locked (.inl fresh) half own

/-- The taker publishes the adapted pre-signature if the joint key is proper. -/
theorem finalSignature_eq (proper : run.K ≠ 0) :
    run.claimer.finalSignature S
        { swapID := run.swapID, sb := respond run.rb run.challenge run.b } =
      .ok (run.presignature, adapt run.presignature run.sA (S.base run.sA)) := by
  obtain ⟨-, lockID, claimer⟩ := run.request_eq
  have verified := verifyFull_adapt S proper run.preVerify_presignature
  have challenged : run.claimer.st.challenge S run.coreHash = some run.challenge := by
    rw [claimer, run.taker_eq, run.commit_eq.2.1]
    rfl
  have half : run.claimer.preResponseHalf S run.coreHash =
      some (respond run.ra run.challenge run.a) := by
    simp only [Taker.preResponseHalf, challenged]
    rw [claimer, run.taker_eq]
    rfl
  have session : run.swapID = run.claimer.st.swapID := by
    rw [claimer, run.taker_eq]
    rfl
  have built : run.claimer.claimTx.isNone = false := by
    rw [claimer]
    rfl
  have known : run.claimer.st.agreed = some
      { peerClaimShare := S.base run.b, peerXNOShare := S.base run.sB
        peerNonceR := S.base run.rb, claimKey := run.K, aggNonceR := run.R
        xnoAccountPub := S.base run.sA + S.base run.sB } := by
    rw [claimer, run.taker_eq, run.commit_eq.2.1]
    rfl
  have adaptor : run.claimer.st.adaptorT = some (S.base run.sA) := by
    rw [claimer, run.taker_eq]
    rfl
  have hash : run.claimer.coreHash = run.coreHash := by rw [claimer]
  have share : run.claimer.sA = run.sA := by
    rw [claimer, run.taker_eq]
    rfl
  rw [← hash] at half
  have signed := Taker.finalSignature_eq_ok S
    { swapID := run.swapID, sb := respond run.rb run.challenge run.b } session built known adaptor
    half (by rw [hash]; exact run.preVerify_presignature) (by rw [hash, share]; exact verified)
  rw [signed, share]
  rfl

end HonestRun

/-- A taker that gets any acceptable claim of a co-signed core hash mined hands
the maker the joint account's key, also across a restart; and in an honest run
whose joint key is not the identity the claim goes through and reveals exactly
the taker's share. -/
theorem claim_reveals_share (S : Suite Scalar Point) :
    (∀ (b sB : Scalar) (swapID : Bytes) (obxAmount : UInt64) (xnoAmount : Nat) (fee : UInt64)
        (sweepDest : String) (ops : List (MakerOp Scalar Point)) (req : ClaimRequest Scalar)
        (presig : ClaimPreSig Scalar) (signed : Maker Scalar Point) (agreed : Agreed Point)
        (T : Point) (sig : FullSig Scalar Point),
      (MakerLog.run S { maker := newMaker b sB swapID obxAmount xnoAmount fee sweepDest }
        ops).maker.coSignClaim S req = (.ok presig, signed) →
      req.validate = .ok () → signed.st.agreed = some agreed → signed.st.adaptorT = some T →
      claimBindingOK sig.R agreed.aggNonceR T = true →
      verifyFull S agreed.claimKey req.coreHash sig = true →
      ∃ secret, signed.recoverSecret S sig = .ok secret ∧
        S.base secret = agreed.peerXNOShare ∧ S.base (secret + signed.sB) = agreed.xnoAccountPub ∧
        (signed.st.phase = .xnoLock → ∀ sweep,
          (signed.sweepXNOIndependent S sweep sig).1 = .ok () ↔
            sweep signed.st.xnoLockID (secret + signed.sB) signed.st.sweepDest = .ok ()) ∧
        ∀ resumed, resumeMaker S signed.st = .ok resumed →
          resumed.recoverSecret S sig = .ok secret) ∧
    ∀ run : HonestRun S, run.K ≠ 0 →
      preVerify S run.K run.coreHash (S.base run.sA) run.presignature = true ∧
      verifyFull S run.K run.coreHash (adapt run.presignature run.sA (S.base run.sA)) = true ∧
      extract run.presignature (adapt run.presignature run.sA (S.base run.sA)) = run.sA ∧
      ∃ presig, (run.lockedMaker.coSignClaim S run.request).1 = .ok presig ∧
        run.claimer.finalSignature S presig =
          .ok (run.presignature, adapt run.presignature run.sA (S.base run.sA)) := by
  refine ⟨?_, fun run proper => ?_⟩
  · intro b sB swapID obxAmount xnoAmount fee sweepDest ops req presig signed agreed T sig answer
      valid known adaptor bound verified
    have coherent := (MakerLog.run_coherent
      (MakerLog.start_coherent (S := S) b sB swapID obxAmount xnoAmount fee sweepDest) ops).maker
    have record := Maker.Signed.of_coSignClaim coherent valid answer
    have hash : signed.st.coSignedCoreHash = req.coreHash := by
      obtain ⟨error, refused⟩ | ⟨given, granted, -⟩ := Maker.coSignClaim_cases S _ req
      · rw [refused] at answer
        cases answer
      · rw [granted] at answer
        rw [← (Prod.mk.inj answer).2]
        rfl
    rw [← hash] at verified
    obtain ⟨secret, recovered, share, account⟩ := record.recovers known adaptor bound verified
    refine ⟨secret, recovered, share, account, fun phase sweep =>
      Maker.sweepXNOIndependent_of_recovered phase known recovered share account sweep, ?_⟩
    intro resumed restarted
    obtain ⟨coherent', state⟩ := Maker.Coherent.resume record.coherent.state restarted
    -- the resumed maker holds the same state, share and nonce
    have nonce : resumed.rb = signed.rb := by
      rw [coherent'.agreedNonce (by rw [state, known]; rfl),
        record.coherent.agreedNonce (by rw [known]; rfl)]
    have own : resumed.b = signed.b := by
      rw [coherent'.holds.1, record.coherent.holds.1, state]
    rw [← recovered]
    simp only [Maker.recoverSecret, Maker.preResponseHalf, state, nonce, own]
  · obtain ⟨presig, signed, rfl⟩ := run.coSigns
    exact ⟨run.preVerify_presignature, verifyFull_adapt S proper run.preVerify_presignature,
      extract_adapt _ _ _, _, by rw [signed], run.finalSignature_eq proper⟩

/-! ## A small group -/

/-- The integers modulo 101 as points and scalars, with a byte sum for a hash. -/
def toySuite : Suite (ZMod 101) (ZMod 101) where
  base := AddMonoidHom.id _
  mult := AddMonoidHom.mulLeft
  mult_base := fun _ _ => rfl
  sha512 := id
  setUniformBytes := fun bytes => ((bytes.map UInt8.toNat).sum : Nat)
  pointBytes := fun point => [UInt8.ofNat point.val]
  scalarBytes := fun scalar => [UInt8.ofNat scalar.val]
  netDom := []

/-- The chain shows the output the maker of share `b` funds. -/
def toyView (b : ZMod 101) : Taker.ChainView (ZMod 101) where
  findSwapOut := fun _ =>
    let ra := sessionNonce toySuite [7] 1 3 5 9
    let rb := sessionNonce toySuite [7] b 4 5 9
    some { claimKey := 1 + b, refundKey := b, unlockHeight := 600, amount := 5, claimR := ra + rb
           claimT := 3 }
  height := 10
  bounded := by decide

theorem two_accepted : (2 : ZMod 101) = 2 ∨ (2 : ZMod 101) = 100 := .inl rfl

/-- An honest run of a taker with shares 1 and 3 and a maker with shares `b` and
4, for a share `b` that the handshake accepts. -/
def toyRun (b : ZMod 101) (accepted : b = 2 ∨ b = 100) : HonestRun toySuite where
  a := 1
  sA := 3
  b := b
  sB := 4
  swapID := [7]
  obxAmount := 5
  xnoAmount := 9
  fee := 1
  sweepDest := "dest"
  openingProof := 11
  commitProof := 12
  replyProof := 13
  commit :=
    { swapID := [7], B := b, Sb := 4, popB := provePossession toySuite 12 b
      Rb := sessionNonce toySuite [7] b 4 5 9 }
  maker := ((newMaker b 4 [7] 5 9 1 "dest").handleInit toySuite 12
    ((newTaker toySuite 1 3 [7] 5 9 1).opening toySuite 11)).2
  opens := by rcases accepted with rfl | rfl <;> rfl
  taker := (newTaker toySuite 1 3 [7] 5 9 1).agree toySuite
    { swapID := [7], B := b, Sb := 4, popB := provePossession toySuite 12 b
      Rb := sessionNonce toySuite [7] b 4 5 9 }
  replies := by rcases accepted with rfl | rfl <;> rfl
  fundProof := 14
  fundHeight := 10
  swapKey := [8]
  fundSwapOut := fun _ => .ok ()
  unlockHeight := 600
  funded := { swapID := [7], swapKey := [8], unlockHeight := 600 }
  fundedMaker := (((newMaker b 4 [7] 5 9 1 "dest").handleInit toySuite 12
    ((newTaker toySuite 1 3 [7] 5 9 1).opening toySuite 11)).2).fundedAs [8] 600
  funds := by rcases accepted with rfl | rfl <;> rfl
  view := toyView b
  lock := fun _ _ => .ok "lock"
  locked := { swapID := [7], lockID := "lock" }
  lockedTaker := ((newTaker toySuite 1 3 [7] 5 9 1).agree toySuite
    { swapID := [7], B := b, Sb := 4, popB := provePossession toySuite 12 b
      Rb := sessionNonce toySuite [7] b 4 5 9 }).lockedAs
    { swapID := [7], swapKey := [8], unlockHeight := 600 } "lock"
  locks := by rcases accepted with rfl | rfl <;> rfl
  named := by decide
  nano := { confirmed := fun _ => true, lockInfo := fun _ => .ok (9, 7) }
  lockedMaker := ((((newMaker b 4 [7] 5 9 1 "dest").handleInit toySuite 12
    ((newTaker toySuite 1 3 [7] 5 9 1).opening toySuite 11)).2).fundedAs [8] 600).lockedAs "lock"
  confirms := by rcases accepted with rfl | rfl <;> rfl
  claimTx := {}
  coreHash := [9]
  request :=
    { swapID := [7], coreHash := [9]
      takerHalf := respond (sessionNonce toySuite [7] 1 3 5 9) (adaptorChallenge toySuite
        (sessionNonce toySuite [7] 1 3 5 9 + sessionNonce toySuite [7] b 4 5 9 + 3) (1 + b) [9]) 1 }
  claimer := { ((newTaker toySuite 1 3 [7] 5 9 1).agree toySuite
    { swapID := [7], B := b, Sb := 4, popB := provePossession toySuite 12 b
      Rb := sessionNonce toySuite [7] b 4 5 9 }).lockedAs
    { swapID := [7], swapKey := [8], unlockHeight := 600 } "lock" with
      claimTx := some {}, coreHash := [9] }
  requests := by rcases accepted with rfl | rfl <;> rfl

/-- The operations of the maker in the honest run, up to the claim request. -/
def toyOps : List (MakerOp (ZMod 101) (ZMod 101)) :=
  [.handleInit 12 ((newTaker toySuite 1 3 [7] 5 9 1).opening toySuite 11),
    .fund 14 10 [8] (fun _ => .ok ()) 600,
    .confirmXNOLock { confirmed := fun _ => true, lockInfo := fun _ => .ok (9, 7) }
      { swapID := [7], lockID := "lock" }]

/-- The claim of the sample run reveals the taker's share. -/
theorem toyClaim_reveals_share :
    (∃ secret, (Maker.recoverSecret toySuite
        ((MakerLog.run toySuite { maker := newMaker 2 4 [7] 5 9 1 "dest" }
          toyOps).maker.coSignClaim toySuite (toyRun 2 (.inl rfl)).request).2
        (adapt (toyRun 2 (.inl rfl)).presignature 3 3)) = .ok secret ∧
      toySuite.base secret = 3) ∧
    verifyFull toySuite (toyRun 2 (.inl rfl)).K [9]
      (adapt (toyRun 2 (.inl rfl)).presignature 3 3) = true := by
  obtain ⟨adversarial, honest⟩ := claim_reveals_share toySuite
  obtain ⟨-, verified, -⟩ := honest (toyRun 2 (.inl rfl)) (by decide)
  obtain ⟨secret, recovered, share, -⟩ := adversarial 2 4 [7] 5 9 1 "dest" toyOps
    (toyRun 2 (.inl rfl)).request
    { swapID := [7], sb := (toyRun 2 (.inl rfl)).presignature.s -
      (toyRun 2 (.inl rfl)).request.takerHalf } _ _ 3
    (adapt (toyRun 2 (.inl rfl)).presignature 3 3) rfl rfl rfl rfl (by decide)
    (by decide)
  exact ⟨⟨secret, recovered, share⟩, verified⟩

/-- Claim shares that cancel make the joint key the identity, under which no
signature is accepted. -/
theorem cancelling_shares_rejected :
    preVerify toySuite (toyRun 100 (.inr rfl)).K (toyRun 100 (.inr rfl)).coreHash
      (toySuite.base (toyRun 100 (.inr rfl)).sA) (toyRun 100 (.inr rfl)).presignature = true ∧
    verifyFull toySuite (toyRun 100 (.inr rfl)).K (toyRun 100 (.inr rfl)).coreHash
      (adapt (toyRun 100 (.inr rfl)).presignature (toyRun 100 (.inr rfl)).sA
        (toySuite.base (toyRun 100 (.inr rfl)).sA)) = false := by
  decide

end Obscura.Swap
