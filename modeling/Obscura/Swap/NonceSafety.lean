import Obscura.Swap.Recovery

/-! # One challenge per nonce

The nonce of a party is a function of its shares and the terms, so every half it
releases in a session uses the same one. The halves have one challenge as long
as, after the first is out, nothing that enters the challenge changes: for the
maker the opening message and the state it resumes from, for the taker the
maker's commitment and the core hash of its claim. The parties' own guards do
not ensure this.
-/

namespace Obscura.Swap

open Wire Checked Schnorr Tx Numerals

variable {Scalar Point : Type} [CommRing Scalar] [AddCommGroup Point] [DecidableEq Point]
variable (S : Suite Scalar Point)

/-! ## The maker -/

/-- The checks an opening message has to pass. -/
def Maker.Admits (m : Maker Scalar Point) (init : Init Scalar Point) : Prop :=
  init.swapID = m.st.swapID ∧ init.obxAmount = m.st.obxAmount ∧ init.xnoAmount = m.st.xnoAmount ∧
    init.fee = m.st.fee ∧ init.validate S = .ok ()

theorem Maker.handleInit_refused {m : Maker Scalar Point} {k : Scalar} {init : Init Scalar Point}
    (refused : ¬ m.Admits S init) : (m.handleInit S k init).2 = m := by
  simp only [handleInit]
  split_ifs with swapID amounts fee
  · rfl
  · rfl
  · rfl
  cases valid : init.validate S with
  | error error => rfl
  | ok done =>
    refine absurd ⟨not_not.mp swapID, ?_, ?_, not_not.mp fee, valid⟩ refused
    · exact not_not.mp fun different => amounts (.inl different)
    · exact not_not.mp fun different => amounts (.inr different)

namespace MakerLog

/-- Once a half is out, an admitted opening message repeats the agreed points,
and a resumed state records the co-signature and the terms the maker holds.
Requests name a core hash, as parsed requests do. -/
def Guarded (log : MakerLog Scalar Point) : MakerOp Scalar Point → Prop
  | .handleInit _ init =>
    log.released ≠ [] → log.maker.Admits S init → ∀ agreed, log.maker.st.agreed = some agreed →
      init.A = agreed.peerClaimShare ∧ init.Ra = agreed.peerNonceR ∧
        log.maker.st.adaptorT = some init.T
  | .coSignClaim req => req.coreHash ≠ []
  | .resume position =>
    log.released ≠ [] → ∀ st, log.saved[position]? = some st →
      st.coSignedCoreHash = log.maker.st.coSignedCoreHash ∧ st.agreed = log.maker.st.agreed ∧
        st.adaptorT = log.maker.st.adaptorT
  | _ => True

/-- A run each of whose steps is guarded. -/
def GuardedRun (log : MakerLog Scalar Point) : List (MakerOp Scalar Point) → Prop
  | [] => True
  | op :: ops => log.Guarded S op ∧ GuardedRun (log.step S op) ops

/-- Every released half was made for the challenge the maker now has on record. -/
def OnRecord (log : MakerLog Scalar Point) : Prop :=
  ∀ half ∈ log.released, log.maker.st.coSignedCoreHash ≠ [] ∧
    log.maker.st.challenge S log.maker.st.coSignedCoreHash = some half.challenge

variable {S} {origin : SwapState Scalar Point} {log : MakerLog Scalar Point}

omit [DecidableEq Point] in
theorem OnRecord.of_state (record : log.OnRecord S) {maker : Maker Scalar Point}
    {saved : List (SwapState Scalar Point)}
    (hash : maker.st.coSignedCoreHash = log.maker.st.coSignedCoreHash)
    (challenge : ∀ coreHash, maker.st.challenge S coreHash = log.maker.st.challenge S coreHash) :
    OnRecord S { maker, saved, released := log.released } := by
  intro half member
  rw [hash, challenge]
  exact record half member

omit [DecidableEq Point] in
theorem OnRecord.of_moves (record : log.OnRecord S) {maker : Maker Scalar Point}
    (hash : maker.st.coSignedCoreHash = log.maker.st.coSignedCoreHash)
    (agreed : maker.st.agreed = log.maker.st.agreed)
    (adaptor : maker.st.adaptorT = log.maker.st.adaptorT) :
    OnRecord S { log with maker } :=
  record.of_state hash fun coreHash => by
    rw [SwapState.challenge, SwapState.challenge, agreed, adaptor]

theorem OnRecord.handleInit (coherent : log.Coherent S origin) (record : log.OnRecord S) {k : Scalar}
    {init : Init Scalar Point} (guarded : log.Guarded S (.handleInit k init)) :
    (log.step S (.handleInit k init)).OnRecord S := by
  by_cases admitted : log.maker.Admits S init
  · obtain ⟨error, -, -, state⟩ | ⟨mc, agrees, -, -⟩ :=
      Maker.handleInit_cases S coherent.maker.holds k init
    · simp only [step]
      exact record.of_moves (by rw [state]) (by rw [state]) (by rw [state])
    · simp only [step, agrees]
      intro half member
      have released : log.released ≠ [] := List.ne_nil_of_mem member
      obtain ⟨hash, challenged⟩ := record half member
      refine ⟨hash, ?_⟩
      rw [← challenged]
      cases known : log.maker.st.agreed with
      | none =>
        rw [SwapState.challenge, known] at challenged
        cases challenged
      | some agreed =>
        obtain ⟨share, nonce, adaptor⟩ := guarded released admitted agreed known
        have joint := coherent.maker.state.joint agreed known
        simp only [Maker.agree, SwapState.challenge, known, adaptor, Option.bind_eq_bind,
          Option.bind_some]
        rw [joint.claimKey, joint.aggNonceR, share, nonce]
  · simp only [step, Maker.handleInit_refused S admitted]
    exact record

theorem OnRecord.coSignClaim (record : log.OnRecord S) {req : ClaimRequest Scalar}
    (guarded : log.Guarded S (.coSignClaim req)) :
    (log.step S (.coSignClaim req)).OnRecord S := by
  obtain ⟨error, refused⟩ | ⟨presig, signed, signs⟩ := log.maker.coSignClaim_cases S req
  · simp only [step, Maker.releases, refused, List.append_nil]
    exact record
  simp only [step, Maker.releases, signed]
  intro half member
  refine ⟨guarded, ?_⟩
  change log.maker.st.challenge S req.coreHash = some half.challenge
  rcases List.mem_append.mp member with old | new
  · obtain ⟨hash, challenged⟩ := record half old
    rcases signs.single with empty | same
    · exact absurd empty hash
    · rw [← same, challenged]
  · split at new
    · rename_i nonce challenge answer known challenged
      obtain rfl := List.mem_singleton.mp new
      exact challenged
    · cases new

/-- A guarded call keeps every half on record. -/
theorem OnRecord.step (coherent : log.Coherent S origin) (record : log.OnRecord S)
    {op : MakerOp Scalar Point} (guarded : log.Guarded S op) : (log.step S op).OnRecord S := by
  cases op with
  | handleInit k init => exact record.handleInit coherent guarded
  | fund k height swapKey fundSwapOut unlockHeight =>
    obtain ⟨error, failed⟩ | ⟨_, _, _, -, -, -, -, -, funded⟩ :=
      log.maker.fund_cases S k height swapKey fundSwapOut unlockHeight
    · simpa only [MakerLog.step, failed] using record
    · simp only [MakerLog.step, funded]
      exact record.of_moves rfl rfl rfl
  | confirmXNOLock nano msg =>
    obtain ⟨error, failed⟩ | ⟨agreed, -, -, -, confirmed⟩ :=
      log.maker.confirmXNOLock_cases nano msg
    · simpa only [MakerLog.step, failed] using record
    · simp only [MakerLog.step, confirmed]
      exact record.of_moves rfl rfl rfl
  | coSignClaim req => exact record.coSignClaim guarded
  | sweepXNO sweep presig fullSig =>
    obtain ⟨phase, settled⟩ := log.maker.sweepXNO_phase S sweep presig fullSig
    simp only [MakerLog.step, settled]
    exact record.of_moves rfl rfl rfl
  | sweepXNOIndependent sweep fullSig =>
    obtain ⟨phase, settled⟩ := log.maker.sweepXNOIndependent_phase S sweep fullSig
    simp only [MakerLog.step, settled]
    exact record.of_moves rfl rfl rfl
  | refund mineRefund =>
    obtain ⟨phase, settled⟩ := log.maker.refund_phase mineRefund
    simp only [MakerLog.step, settled]
    exact record.of_moves rfl rfl rfl
  | save => exact record
  | resume position =>
    simp only [MakerLog.step]
    split
    · exact record
    rename_i st found
    split
    · exact record
    rename_i resumed restarted
    obtain ⟨-, state⟩ := Maker.Coherent.resume
      (coherent.saved st (List.mem_of_getElem? found)) restarted
    intro half member
    obtain ⟨hash, agreed, adaptor⟩ := guarded (List.ne_nil_of_mem member) st found
    rw [← state] at hash agreed adaptor
    exact record.of_moves hash agreed adaptor half member

theorem OnRecord.run (coherent : log.Coherent S origin) (record : log.OnRecord S)
    {ops : List (MakerOp Scalar Point)} (guarded : log.GuardedRun S ops) :
    (log.run S ops).OnRecord S := by
  induction ops generalizing log with
  | nil => exact record
  | cons op ops ih =>
    exact ih (step_coherent coherent op) (record.step coherent guarded.1) guarded.2

end MakerLog

/-- In a guarded run all halves a maker releases under one nonce have one
challenge. -/
theorem maker_halves_one_challenge (b sB : Scalar) (swapID : Bytes) (obxAmount : UInt64)
    (xnoAmount : Nat) (fee : UInt64) (sweepDest : String) (ops : List (MakerOp Scalar Point))
    (guarded : MakerLog.GuardedRun S
      { maker := newMaker b sB swapID obxAmount xnoAmount fee sweepDest } ops) :
    let final := MakerLog.run S
      { maker := newMaker b sB swapID obxAmount xnoAmount fee sweepDest } ops
    ∀ first ∈ final.released, ∀ second ∈ final.released, first.nonce = second.nonce →
      first.challenge = second.challenge := by
  intro final first firstOut second secondOut _
  have start : MakerLog.OnRecord S
      { maker := newMaker b sB swapID obxAmount xnoAmount fee sweepDest } :=
    fun half absurd => nomatch absurd
  have record := start.run
    (MakerLog.start_coherent b sB swapID obxAmount xnoAmount fee sweepDest) guarded
  have same := (record first firstOut).2.symm.trans (record second secondOut).2
  exact Option.some.inj same

/-- The honest maker co-signs, is asked again for the same claim, and answers
with the same half. -/
def retriedOps : List (MakerOp (ZMod 101) (ZMod 101)) :=
  toyOps ++ [.coSignClaim (toyRun 2 two_accepted).request, .save,
    .coSignClaim (toyRun 2 two_accepted).request, .resume 0]

/-- Halves that are asked for again answer one challenge. -/
theorem retried_halves_one_challenge :
    let final := MakerLog.run toySuite { maker := newMaker 2 4 [7] 5 9 1 "dest" } retriedOps
    final.released.length = 2 ∧
      ∀ first ∈ final.released, ∀ second ∈ final.released, first.nonce = second.nonce →
        first.challenge = second.challenge := by
  refine ⟨rfl, maker_halves_one_challenge toySuite 2 4 [7] 5 9 1 "dest" retriedOps ?_⟩
  refine ⟨fun absurd => absurd rfl |>.elim, trivial, trivial, List.cons_ne_nil 9 [], trivial,
    List.cons_ne_nil 9 [], ?_, trivial⟩
  intro _ st found
  obtain rfl := Option.some.inj found
  exact ⟨rfl, rfl, rfl⟩

/-- A second opening message of the same taker with another nonce point. -/
def reopening : Init (ZMod 101) (ZMod 101) :=
  { (newTaker toySuite 1 3 [7] 5 9 1).opening toySuite 11 with Ra := 50 }

/-- The same core hash is co-signed before and after the second opening. -/
def reopenedOps : List (MakerOp (ZMod 101) (ZMod 101)) :=
  toyOps ++ [.coSignClaim (toyRun 2 two_accepted).request, .handleInit 12 reopening,
    .coSignClaim
      { swapID := [7], coreHash := [9]
        takerHalf := 50 + adaptorChallenge toySuite
          (50 + sessionNonce toySuite [7] 2 4 5 9 + 3) (1 + 2) [9] * 1 }]

/-- The guard on the core hash alone lets one nonce meet two challenges. -/
theorem second_opening_reuses_nonce :
    ∃ first second,
      (MakerLog.run toySuite { maker := newMaker 2 4 [7] 5 9 1 "dest" } reopenedOps).released =
        [first, second] ∧
      first.nonce = second.nonce ∧ first.challenge ≠ second.challenge :=
  ⟨_, _, rfl, by decide +kernel, by decide +kernel⟩

/-! ## The taker -/

namespace TakerLog

/-- Once a half is out, a commitment that passes its checks repeats the agreed
points and a claim is built for the same core hash. -/
def Guarded (log : TakerLog Scalar Point) : TakerOp Scalar Point → Prop
  | .handleMakerCommit _ mc =>
    log.released ≠ [] → mc.swapID = log.taker.st.swapID → mc.validate S = .ok () →
      ∀ agreed, log.taker.st.agreed = some agreed →
        mc.B = agreed.peerClaimShare ∧ mc.Rb = agreed.peerNonceR
  | .buildClaimRequest buildClaim =>
    log.released ≠ [] → log.taker.st.phase = .xnoLock →
      ∀ claimTx coreHash, buildClaim = .ok (claimTx, coreHash) → coreHash = log.taker.coreHash
  | _ => True

/-- A run each of whose steps is guarded. -/
def GuardedRun (log : TakerLog Scalar Point) : List (TakerOp Scalar Point) → Prop
  | [] => True
  | op :: ops => log.Guarded S op ∧ GuardedRun (log.step S op) ops

/-- The agreed keys are the sums of the taker's points and the maker's, and every
released half was made for the challenge of the claim the taker now holds. -/
structure OnRecord (log : TakerLog Scalar Point) : Prop where
  joint : ∀ agreed, log.taker.st.agreed = some agreed →
    agreed.claimKey = S.base log.taker.a + agreed.peerClaimShare ∧
      agreed.aggNonceR = S.base log.taker.ra + agreed.peerNonceR
  challenge : ∀ half ∈ log.released,
    log.taker.st.challenge S log.taker.coreHash = some half.challenge

variable {S} {log : TakerLog Scalar Point}

theorem OnRecord.handleMakerCommit (record : log.OnRecord S) {k : Scalar}
    {mc : MakerCommit Scalar Point} (guarded : log.Guarded S (.handleMakerCommit k mc)) :
    (log.step S (.handleMakerCommit k mc)).OnRecord S := by
  obtain ⟨error, failed⟩ | ⟨error, failed⟩ | ⟨accepted, accepts⟩ :=
    log.taker.handleMakerCommit_cases S k mc
  · simpa only [step, failed] using record
  · simp only [step, failed]
    exact ⟨record.joint, record.challenge⟩
  · simp only [step, accepted]
    refine ⟨?_, fun half member => ?_⟩
    · intro agreed known
      obtain rfl := Option.some.inj known
      exact ⟨rfl, rfl⟩
    · have challenged := record.challenge half member
      rw [← challenged]
      cases known : log.taker.st.agreed with
      | none =>
        rw [SwapState.challenge, known] at challenged
        cases challenged
      | some agreed =>
        obtain ⟨share, nonce⟩ := guarded (List.ne_nil_of_mem member) accepts.session
          accepts.valid agreed known
        obtain ⟨claimKey, aggNonce⟩ := record.joint agreed known
        simp only [Taker.agree, SwapState.challenge, known, Option.bind_eq_bind,
          Option.bind_some]
        rw [claimKey, aggNonce, share, nonce]

/-- A claim built for the same core hash repeats the challenge. -/
theorem OnRecord.buildClaimRequest (record : log.OnRecord S)
    {buildClaim : Except String (Transaction × Bytes)}
    (guarded : log.Guarded S (.buildClaimRequest buildClaim)) :
    (log.step S (.buildClaimRequest buildClaim)).OnRecord S := by
  by_cases phase : log.taker.st.phase = .xnoLock
  · obtain ⟨error, failed⟩ | ⟨claimTx, coreHash, built, taker, answer⟩ :=
      log.taker.buildClaimRequest_cases S buildClaim
    · simp only [step, Taker.requestReleases, failed, List.append_nil]
      exact record
    · simp only [step, taker]
      refine ⟨record.joint, fun half member => ?_⟩
      change log.taker.st.challenge S coreHash = some half.challenge
      rcases List.mem_append.mp member with old | new
      · rw [guarded (List.ne_nil_of_mem old) phase claimTx coreHash built]
        exact record.challenge half old
      · rcases answer with ⟨error, failed⟩ | ⟨challenge, challenged, requested⟩
        · simp [Taker.requestReleases, failed] at new
        · simp only [Taker.requestReleases, requested, challenged, Option.map_some,
            Option.toList_some, List.mem_singleton] at new
          rw [new]
          exact challenged
  · have refused : ∃ error, log.taker.buildClaimRequest S buildClaim = (.error error, log.taker) := by
      simp only [Taker.buildClaimRequest, ne_eq, phase, not_false_eq_true, if_true]
      exact ⟨_, rfl⟩
    obtain ⟨error, failed⟩ := refused
    simp only [step, Taker.requestReleases, failed, List.append_nil]
    exact record

theorem OnRecord.finalizeClaim (record : log.OnRecord S)
    {mineClaim : FullSig Scalar Point → Except String Unit} {presig : ClaimPreSig Scalar} :
    (log.step S (.finalizeClaim mineClaim presig)).OnRecord S := by
  obtain ⟨error, unsigned, failed⟩ | ⟨agg, full, phase, signed, taker⟩ :=
    log.taker.finalizeClaim_cases S mineClaim presig
  · simp only [step, Taker.claimReleases, unsigned, failed, List.append_nil]
    exact record
  · simp only [step, taker]
    refine ⟨record.joint, fun half member => ?_⟩
    change log.taker.st.challenge S log.taker.coreHash = some half.challenge
    rcases List.mem_append.mp member with old | new
    · exact record.challenge half old
    · simp only [Taker.claimReleases, signed, Option.mem_toList, Option.map_eq_some_iff] at new
      obtain ⟨challenge, challenged, rfl⟩ := new
      exact challenged

theorem OnRecord.step (record : log.OnRecord S) {op : TakerOp Scalar Point}
    (guarded : log.Guarded S op) : (log.step S op).OnRecord S := by
  cases op with
  | init k => exact record
  | handleMakerCommit k mc => exact record.handleMakerCommit guarded
  | verifyFundedAndLock view lock funded =>
    obtain ⟨error, failed⟩ | ⟨amount, account, lockID, -, -, locked⟩ :=
      log.taker.verifyFundedAndLock_cases view lock funded
    · simpa only [TakerLog.step, failed] using record
    · simp only [TakerLog.step, locked]
      exact ⟨record.joint, record.challenge⟩
  | buildClaimRequest buildClaim => exact record.buildClaimRequest guarded
  | finalizeClaim mineClaim presig => exact record.finalizeClaim

theorem OnRecord.run (record : log.OnRecord S) {ops : List (TakerOp Scalar Point)}
    (guarded : log.GuardedRun S ops) : (log.run S ops).OnRecord S := by
  induction ops generalizing log with
  | nil => exact record
  | cons op ops ih => exact ih (record.step guarded.1) guarded.2

end TakerLog

/-- In a guarded run all halves a taker releases have one challenge. -/
theorem taker_halves_one_challenge (a sA : Scalar) (swapID : Bytes) (obxAmount : UInt64)
    (xnoAmount : Nat) (fee : UInt64) (ops : List (TakerOp Scalar Point))
    (guarded : TakerLog.GuardedRun S
      { taker := newTaker S a sA swapID obxAmount xnoAmount fee } ops) :
    let final := TakerLog.run S { taker := newTaker S a sA swapID obxAmount xnoAmount fee } ops
    ∀ first ∈ final.released, ∀ second ∈ final.released, first.challenge = second.challenge := by
  intro final first firstOut second secondOut
  have start : TakerLog.OnRecord S
      { taker := newTaker S a sA swapID obxAmount xnoAmount fee } :=
    ⟨fun agreed absurd => (nomatch absurd), fun half absurd => (nomatch absurd)⟩
  have record := start.run guarded
  have same := (record.challenge first firstOut).symm.trans (record.challenge second secondOut)
  exact Option.some.inj same

/-- The taker locks, then requests a claim with each of the given core hashes. -/
def claimingOps (coreHashes : List Bytes) : List (TakerOp (ZMod 101) (ZMod 101)) :=
  [.handleMakerCommit 13 (toyRun 2 two_accepted).commit,
    .verifyFundedAndLock (toyView 2) (fun _ _ => .ok "lock")
      { swapID := [7], swapKey := [8], unlockHeight := 600 }] ++
    coreHashes.map fun coreHash => .buildClaimRequest (.ok ({}, coreHash))

/-- Requests that are sent again have one challenge. -/
theorem repeated_request_one_challenge :
    let final := TakerLog.run toySuite { taker := newTaker toySuite 1 3 [7] 5 9 1 }
      (claimingOps [[9], [9]])
    final.released.length = 2 ∧
      ∀ first ∈ final.released, ∀ second ∈ final.released, first.challenge = second.challenge := by
  refine ⟨rfl, taker_halves_one_challenge toySuite 1 3 [7] 5 9 1 (claimingOps [[9], [9]]) ?_⟩
  refine ⟨fun absurd => absurd rfl |>.elim, trivial, fun absurd => absurd rfl |>.elim, ?_, trivial⟩
  intro _ _ claimTx coreHash built
  exact (Prod.mk.inj (Except.ok.inj built)).2.symm

/-- Two claim requests with the fresh core hashes the chain returns meet two
challenges under one nonce. -/
theorem fresh_claim_reuses_nonce :
    ∃ first second,
      (TakerLog.run toySuite { taker := newTaker toySuite 1 3 [7] 5 9 1 }
        (claimingOps [[9], [10]])).released = [first, second] ∧
      first.nonce = second.nonce ∧ first.challenge ≠ second.challenge :=
  ⟨_, _, rfl, by decide, by decide⟩

end Obscura.Swap
