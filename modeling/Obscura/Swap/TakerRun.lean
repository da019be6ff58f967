import Obscura.Swap.MakerRun

/-! # Runs of a taker

A taker under any sequence of its operations, with any maker messages and any
answers of the chain and the ledger. The log keeps the signature halves it has
handed out, in claim requests and inside published claims.
-/

namespace Obscura.Swap

open Wire Checked Schnorr Tx

variable {Scalar Point : Type} [CommRing Scalar] [AddCommGroup Point] [DecidableEq Point]
variable (S : Suite Scalar Point)

namespace Taker

/-! ## What an operation can do -/

/-- The taker after the joint keys of a maker's commitment are agreed. -/
def agree (t : Taker Scalar Point) (mc : MakerCommit Scalar Point) : Taker Scalar Point :=
  { t with
    mc := some mc
    st := { t.st with
      agreed := some
        { peerClaimShare := mc.B, peerXNOShare := mc.Sb, peerNonceR := mc.Rb
          claimKey := S.base t.a + mc.B
          aggNonceR := S.base t.ra + mc.Rb
          xnoAccountPub := S.base t.sA + mc.Sb } } }

/-- The taker after its XNO is locked. -/
def lockedAs (t : Taker Scalar Point) (funded : Funded) (lockID : String) :
    Taker Scalar Point :=
  { t with st := { t.st with
      swapKey := some funded.swapKey, unlockHeight := funded.unlockHeight
      xnoLockID := lockID, phase := .xnoLock } }

/-- What an accepted commitment satisfies. -/
structure Accepts (t : Taker Scalar Point) (mc : MakerCommit Scalar Point) : Prop where
  session : mc.swapID = t.st.swapID
  valid : mc.validate S = .ok ()
  possession : verifyPossession S mc.B mc.popB = true
  share : mc.Sb ≠ 0
  nonce : mc.Rb ≠ 0

theorem MakerCommit.validate_ok {mc : MakerCommit Scalar Point}
    (valid : mc.validate S = .ok ()) :
    verifyPossession S mc.B mc.popB = true ∧ mc.Sb ≠ 0 ∧ mc.Rb ≠ 0 := by
  simp only [MakerCommit.validate, bind_ok, reject_ok, Maker.pointOf_ok] at valid
  obtain ⟨_, possession, _, ⟨share, -⟩, _, ⟨nonce, -⟩, -⟩ := valid
  exact ⟨by simpa using possession, share, nonce⟩

theorem handleMakerCommit_cases (t : Taker Scalar Point) (k : Scalar)
    (mc : MakerCommit Scalar Point) :
    (∃ error, t.handleMakerCommit S k mc = (.error error, t)) ∨
    (∃ error, t.handleMakerCommit S k mc = (.error error, { t with mc := some mc })) ∨
    (t.handleMakerCommit S k mc = (.ok (), t.agree S mc) ∧ Accepts S t mc) := by
  simp only [handleMakerCommit]
  split_ifs with session
  · exact .inl ⟨_, rfl⟩
  cases valid : mc.validate S with
  | error error => exact .inl ⟨_, rfl⟩
  | ok done =>
    obtain ⟨possession, share, nonce⟩ := MakerCommit.validate_ok S valid
    dsimp only
    split
    · exact .inr (.inl ⟨_, rfl⟩)
    · rename_i keys K R xnoPub joint
      obtain ⟨-, same⟩ := Maker.jointKeys_ok joint
      simp only [Prod.mk.injEq] at same
      obtain ⟨rfl, rfl, rfl⟩ := same
      exact .inr (.inr ⟨rfl, by simpa using session, valid, possession, share, nonce⟩)

/-- What the chain shows when a lock is allowed. -/
structure Locks (t : Taker Scalar Point) (view : ChainView Point) (funded : Funded)
    (amount : Nat) (account : Point) (so : SwapOutput Point) (agreed : Agreed Point) : Prop where
  session : funded.swapID = t.st.swapID
  found : view.findSwapOut funded.swapKey = some so
  known : t.st.agreed = some agreed
  claimKey : so.claimKey = agreed.claimKey
  locked : so.amount = t.st.obxAmount
  unlock : so.unlockHeight = funded.unlockHeight
  window : ¬ so.unlockHeight < Maker.minUnlock view.height
  claimR : so.claimR = agreed.aggNonceR
  claimT : t.st.adaptorT = some so.claimT
  refundKey : so.refundKey = agreed.peerClaimShare
  amount : amount = t.st.xnoAmount
  account : account = agreed.xnoAccountPub

omit [CommRing Scalar] [AddCommGroup Point] in
/-- What an allowed lock says. -/
theorem lockCall_ok {t : Taker Scalar Point} {view : ChainView Point} {funded : Funded}
    {amount : Nat} {account : Point} (allowed : t.lockCall view funded = .ok (amount, account)) :
    ∃ so agreed, Locks t view funded amount account so agreed := by
  rw [lockCall] at allowed
  split_ifs at allowed with session committed
  split at allowed
  · cases allowed
  rename_i so found
  split at allowed
  · cases allowed
  rename_i checked
  split at allowed
  · cases allowed
  rename_i agreed known
  simp only [Except.ok.injEq, Prod.mk.injEq] at allowed
  simp only [checkSwapOut, bind_ok, reject_ok, known, Option.map_some, ne_eq, not_not,
    Option.some.injEq] at checked
  obtain ⟨_, claimKey, _, locked, _, unlock, _, window, _, claimR, _, claimT, refundKey⟩ := checked
  exact ⟨so, agreed, by simpa using session, found, known, claimKey, locked, unlock, window, claimR,
    claimT.symm, refundKey, allowed.1.symm, allowed.2.symm⟩

omit [CommRing Scalar] [AddCommGroup Point] in
theorem verifyFundedAndLock_cases (t : Taker Scalar Point) (view : ChainView Point)
    (lock : Lock Point) (funded : Funded) :
    (∃ error, t.verifyFundedAndLock view lock funded = (.error error, t)) ∨
    ∃ amount account lockID, t.lockCall view funded = .ok (amount, account) ∧
      lock amount account = .ok lockID ∧
      t.verifyFundedAndLock view lock funded =
        (.ok { swapID := t.st.swapID, lockID }, t.lockedAs funded lockID) := by
  rw [verifyFundedAndLock]
  split
  · exact .inl ⟨_, rfl⟩
  · rename_i amount account allowed
    split
    · exact .inl ⟨_, rfl⟩
    · rename_i lockID answered
      exact .inr ⟨amount, account, lockID, allowed, answered, rfl⟩

omit [DecidableEq Point] in
theorem buildClaimRequest_cases (t : Taker Scalar Point)
    (buildClaim : Except String (Transaction × Bytes)) :
    (∃ error, t.buildClaimRequest S buildClaim = (.error error, t)) ∨
    ∃ claimTx coreHash, buildClaim = .ok (claimTx, coreHash) ∧
      (t.buildClaimRequest S buildClaim).2 = { t with claimTx := some claimTx, coreHash } ∧
      ((∃ error, (t.buildClaimRequest S buildClaim).1 = .error error) ∨
        ∃ challenge, t.st.challenge S coreHash = some challenge ∧
          (t.buildClaimRequest S buildClaim).1 =
            .ok { swapID := t.st.swapID, coreHash, takerHalf := t.ra + challenge * t.a }) := by
  by_cases phase : t.st.phase ≠ .xnoLock
  · simp only [buildClaimRequest, if_pos phase]
    exact .inl ⟨_, rfl⟩
  simp only [buildClaimRequest, if_neg phase]
  cases buildClaim with
  | error text => exact .inl ⟨_, rfl⟩
  | ok built =>
    obtain ⟨claimTx, coreHash⟩ := built
    refine .inr ⟨claimTx, coreHash, rfl, ?_⟩
    cases challenged : t.st.challenge S coreHash with
    | none => simp [preResponseHalf, challenged]
    | some challenge => simp [preResponseHalf, challenged]

theorem finalSignature_ok {t : Taker Scalar Point} {presig : ClaimPreSig Scalar}
    {agg : AdaptorSig Scalar Point} {full : FullSig Scalar Point}
    (signed : t.finalSignature S presig = .ok (agg, full)) :
    ∃ challenge, t.st.challenge S t.coreHash = some challenge ∧
      agg.s = t.ra + challenge * t.a + presig.sb := by
  rw [finalSignature] at signed
  split_ifs at signed with session built
  split at signed
  · rename_i agreed T sa known adaptor half
    dsimp only at signed
    split_ifs at signed with preVerified verified
    simp only [Except.ok.injEq, Prod.mk.injEq] at signed
    obtain ⟨rfl, -⟩ := signed
    simp only [preResponseHalf, Option.bind_eq_bind, Option.bind_eq_some_iff, Option.pure_def,
      Option.some.injEq] at half
    obtain ⟨challenge, challenged, rfl⟩ := half
    exact ⟨challenge, challenged, rfl⟩
  · cases signed

/-- The signature that a half completes. -/
theorem finalSignature_eq_ok {t : Taker Scalar Point} (presig : ClaimPreSig Scalar)
    {agreed : Agreed Point} {T : Point} {sa : Scalar} (session : presig.swapID = t.st.swapID)
    (built : t.claimTx.isNone = false) (known : t.st.agreed = some agreed)
    (adaptor : t.st.adaptorT = some T) (half : t.preResponseHalf S t.coreHash = some sa)
    (preVerified : preVerify S agreed.claimKey t.coreHash T
      { R := agreed.aggNonceR, s := sa + presig.sb } = true)
    (verified : verifyFull S agreed.claimKey t.coreHash
      (adapt { R := agreed.aggNonceR, s := sa + presig.sb } t.sA T) = true) :
    t.finalSignature S presig = .ok ({ R := agreed.aggNonceR, s := sa + presig.sb },
      adapt { R := agreed.aggNonceR, s := sa + presig.sb } t.sA T) := by
  rw [finalSignature, if_neg (not_not.mpr session), if_neg (by simp [built])]
  simp only [known, adaptor, half, preVerified, verified, Bool.not_true, Bool.false_eq_true,
    if_false]

/-- What a half does. -/
theorem finalizeClaim_cases (t : Taker Scalar Point)
    (mineClaim : FullSig Scalar Point → Except String Unit) (presig : ClaimPreSig Scalar) :
    (∃ error, t.finalSignature S presig = .error error ∧
      t.finalizeClaim S mineClaim presig = (.error error, t)) ∨
    ∃ agg full phase, t.finalSignature S presig = .ok (agg, full) ∧
      (t.finalizeClaim S mineClaim presig).2 =
        { t with presig := some agg, st := { t.st with phase } } := by
  rw [finalizeClaim]
  split
  · rename_i error failed
    exact .inl ⟨error, failed, rfl⟩
  · rename_i agg full signed
    refine .inr ⟨agg, full, ?_⟩
    cases mineClaim full with
    | error text => exact ⟨t.st.phase, signed, rfl⟩
    | ok done => exact ⟨.claimed, signed, rfl⟩

end Taker

/-! ## Runs -/

/-- A taker with the halves it released. -/
structure TakerLog (Scalar Point : Type) where
  taker : Taker Scalar Point
  released : List (Released Scalar) := []

/-- What a taker is asked, with the nonces and the chain's answers. -/
inductive TakerOp (Scalar Point : Type) where
  /-- Send the opening message. -/
  | init (k : Scalar)
  | handleMakerCommit (k : Scalar) (mc : MakerCommit Scalar Point)
  | verifyFundedAndLock (view : Taker.ChainView Point) (lock : Taker.Lock Point) (funded : Funded)
  | buildClaimRequest (buildClaim : Except String (Transaction × Bytes))
  | finalizeClaim (mineClaim : FullSig Scalar Point → Except String Unit)
      (presig : ClaimPreSig Scalar)

namespace Taker

/-- The half a claim request hands out. -/
def requestReleases (t : Taker Scalar Point)
    (buildClaim : Except String (Transaction × Bytes)) : List (Released Scalar) :=
  match (t.buildClaimRequest S buildClaim).1 with
  | .error _ => []
  | .ok req =>
    ((t.st.challenge S req.coreHash).map fun challenge =>
      { nonce := t.ra, challenge, response := req.takerHalf }).toList

/-- The half inside a claim that is handed over for mining: the published
response less the maker's half and the adaptor secret. -/
def claimReleases (t : Taker Scalar Point) (presig : ClaimPreSig Scalar) :
    List (Released Scalar) :=
  match t.finalSignature S presig with
  | .error _ => []
  | .ok (_, full) =>
    ((t.st.challenge S t.coreHash).map fun challenge =>
      { nonce := t.ra, challenge, response := full.s - t.sA - presig.sb }).toList

end Taker

namespace TakerLog

/-- The taker after one call, with the locks that it has made. -/
def step (log : TakerLog Scalar Point) : TakerOp Scalar Point → TakerLog Scalar Point
  | .init _ => log
  | .handleMakerCommit k mc => { log with taker := (log.taker.handleMakerCommit S k mc).2 }
  | .verifyFundedAndLock view lock funded =>
    { log with taker := (log.taker.verifyFundedAndLock view lock funded).2 }
  | .buildClaimRequest buildClaim =>
    { log with
      taker := (log.taker.buildClaimRequest S buildClaim).2
      released := log.released ++ log.taker.requestReleases S buildClaim }
  | .finalizeClaim mineClaim presig =>
    { log with
      taker := (log.taker.finalizeClaim S mineClaim presig).2
      released := log.released ++ log.taker.claimReleases S presig }

/-- The taker after a list of calls. -/
def run (log : TakerLog Scalar Point) (ops : List (TakerOp Scalar Point)) : TakerLog Scalar Point :=
  ops.foldl (step S) log

end TakerLog

end Obscura.Swap
