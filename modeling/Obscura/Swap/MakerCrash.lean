import Obscura.Swap.MakerDriver

/-! # Stopping and restarting a maker

The maker's process may stop between any two effects of its driver. What it leaves
behind is the state on disk and the OBX it has locked. A restart recovers the swap
exactly when a state was written since the funding and, if the maker's half of the
claim was sent, since the co-signature: persisting comes after the effect it
records, and its errors are dropped.
-/

namespace Obscura.Swap

open Wire Checked Schnorr Tx Numerals

variable {Scalar Point : Type} [CommRing Scalar] [AddCommGroup Point] [DecidableEq Point]

/-- What a stopped maker leaves behind. -/
structure Stopped (Scalar Point : Type) where
  disk : Option (SwapState Scalar Point) := none
  funded : Option (Maker.FundArgs Scalar Point) := none
  /-- The funding, while it is neither refunded nor swept for. -/
  atStake : Option (Maker.FundArgs Scalar Point) := none
  fundingSaved : Bool := false
  coSigned : Option Bytes := none
  coSignSaved : Bool := false
  /-- The core hash whose half was sent to the taker. -/
  released : Option Bytes := none
  /-- The lock that was swept, with the account secret. -/
  swept : Option (String × Scalar) := none
  /-- The ledger refused a sweep. -/
  sweepRefused : Bool := false
  refundAsked : Bool := false

namespace Stopped

/-- What a stopped maker leaves behind after an effect. -/
def step (s : Stopped Scalar Point) : MakerEffect Scalar Point → Stopped Scalar Point
  | .save st true =>
    { s with
      disk := some st
      fundingSaved := s.atStake.isSome
      coSignSaved := s.coSigned.isSome }
  | .remove => { s with disk := none }
  | .fund args true =>
    { s with funded := some args, atStake := some args, fundingSaved := false }
  | .coSign req => { s with coSigned := some req.coreHash }
  | .send .claimPreSig => { s with released := s.coSigned }
  | .sweep lockID secret true => { s with atStake := none, swept := some (lockID, secret) }
  | .sweep _ _ false => { s with sweepRefused := true }
  | .mineRefund _ true => { s with atStake := none, refundAsked := true }
  | .mineRefund _ false => { s with refundAsked := true }
  | _ => s

/-- Everything the restart needs has been written. -/
def Saved (s : Stopped Scalar Point) : Prop :=
  s.fundingSaved = true ∧ (s.released.isSome → s.coSignSaved = true)

end Stopped

/-! ## The watch after a restart -/

namespace MakerWorld

open Driver

variable (w : MakerWorld Scalar Point) (S : Suite Scalar Point)

/-- A round of the watch that starts at this tick and finds nothing to do. -/
structure QuietRound (st : SwapState Scalar Point) (time : Nat) : Prop where
  unclaimed : st.swapKey.bind (w.findSwapSpend time) = none
  open_ : ¬ st.unlockHeight ≤ w.height (time + 1)
  serving : w.stopping (time + 2) = false

/-- The trace of a number of quiet rounds. -/
def quietTrace : Nat → List (MakerEffect Scalar Point)
  | 0 => []
  | rounds + 1 => .scrape :: .readHeight :: .wait :: quietTrace rounds

omit [CommRing Scalar] [AddCommGroup Point] [DecidableEq Point] in
theorem quietTrace_length (rounds : Nat) :
    (quietTrace rounds : List (MakerEffect Scalar Point)).length = 3 * rounds := by
  induction rounds with
  | zero => rfl
  | succ rounds ih =>
    simp only [quietTrace, List.length_cons, ih]
    omega

variable {w S} {maker : Maker Scalar Point} {time : Nat}

theorem makerSweep_quiet (quiet : w.QuietRound maker.st time) (rounds : Nat) :
    (w.makerSweep S (rounds + 1) maker).run time =
      (.scrape :: .readHeight :: .wait :: ((w.makerSweep S rounds maker).run (time + 3)).1,
        ((w.makerSweep S rounds maker).run (time + 3)).2) := by
  have watched : (w.sweepFromChain S maker).run time = ([.scrape], .ok (false, maker)) := by
    simp [sweepFromChain, Bind.bind, ask, quiet.unclaimed, Pure.pure]
  cases last : (w.makerSweep S rounds maker).run (time + 3) with
  | mk performed answer =>
  cases answer <;>
    simp [makerSweep, Bind.bind, watched, ask, quiet.open_, quiet.serving, last]

/-- Quiet rounds pass without an effect on the swap. -/
theorem makerSweep_quiets (quiets : Nat) (rounds : Nat)
    (quiet : ∀ round < quiets, w.QuietRound maker.st (time + 3 * round)) :
    (w.makerSweep S (quiets + rounds) maker).run time =
      (quietTrace quiets ++ ((w.makerSweep S rounds maker).run (time + 3 * quiets)).1,
        ((w.makerSweep S rounds maker).run (time + 3 * quiets)).2) := by
  induction quiets generalizing time with
  | zero => simp [quietTrace]
  | succ quiets ih =>
    have first : w.QuietRound maker.st time := by simpa using quiet 0 (by omega)
    have later : ∀ round < quiets, w.QuietRound maker.st (time + 3 + 3 * round) := by
      intro round bound
      have next := quiet (round + 1) (by omega)
      rwa [show time + 3 * (round + 1) = time + 3 + 3 * round by omega] at next
    rw [show quiets + 1 + rounds = quiets + rounds + 1 by omega, makerSweep_quiet first, ih later,
      show time + 3 + 3 * quiets = time + 3 * (quiets + 1) by omega]
    rfl

theorem makerSweep_claim {sig : FullSig Scalar Point} {secret : Scalar} (rounds : Nat)
    (mined : maker.st.swapKey.bind (w.findSwapSpend time) = some sig)
    (call : maker.sweepCall S sig = some secret) :
    [.scrape, .sweep maker.st.xnoLockID secret
      (w.sweep (time + 1) maker.st.xnoLockID secret maker.st.sweepDest).isOk] <+:
      (w.makerSweep S (rounds + 1) maker).effects time := by
  have swept : (w.sweepFromChain S maker).effects time =
      [.scrape, .sweep maker.st.xnoLockID secret
        (w.sweep (time + 1) maker.st.xnoLockID secret maker.st.sweepDest).isOk] := by
    simp [sweepFromChain, mined, call]
  rw [← swept]
  exact effects_bind_prefix _ _ time

theorem makerSweep_closed (rounds : Nat)
    (unclaimed : maker.st.swapKey.bind (w.findSwapSpend time) = none)
    (closed : maker.st.unlockHeight ≤ w.height (time + 1)) :
    (w.makerSweep S (rounds + 1) maker).run time =
      ([.scrape, .readHeight], .ok (.windowClosed, maker)) := by
  have watched : (w.sweepFromChain S maker).run time = ([.scrape], .ok (false, maker)) := by
    simp [sweepFromChain, Bind.bind, ask, unclaimed, Pure.pure]
  simp [makerSweep, Bind.bind, watched, ask, closed, Pure.pure]

end MakerWorld

/-! ## What a restart achieves -/

/-- A claim of the funded output for a core hash that the chain accepts. -/
def Maker.FundArgs.ClaimedBy (S : Suite Scalar Point) (args : Maker.FundArgs Scalar Point)
    (coreHash : Bytes) (sig : FullSig Scalar Point) : Prop :=
  claimBindingOK sig.R args.claimR args.claimT = true ∧
    verifyFull S args.claimKey coreHash sig = true

/-- In every later world the recovery of this state sweeps as soon as a claim for the
released core hash is mined, and asks for the refund once the unlock height is
reached without one. -/
structure SwapState.Redrives (S : Suite Scalar Point) (st : SwapState Scalar Point)
    (args : Maker.FundArgs Scalar Point) (released : Option Bytes) : Prop where
  sweeps : ∀ (w : MakerWorld Scalar Point) (time quiets rounds : Nat)
      (sig : FullSig Scalar Point) (coreHash : Bytes),
    (∀ round < quiets, w.QuietRound st (time + 3 * round)) →
    w.findSwapSpend (time + 3 * quiets) args.swapKey = some sig →
    released = some coreHash → args.ClaimedBy S coreHash sig →
    ∃ agreed secret, st.agreed = some agreed ∧ S.base secret = agreed.xnoAccountPub ∧
      MakerWorld.quietTrace quiets ++ [.scrape, .sweep st.xnoLockID secret
        (w.sweep (time + 3 * quiets + 1) st.xnoLockID secret st.sweepDest).isOk] <+:
        (w.resumeMakerRecovery S (quiets + (rounds + 1)) st).effects time
  refunds : ∀ (w : MakerWorld Scalar Point) (time quiets rounds : Nat),
    (∀ round < quiets, w.QuietRound st (time + 3 * round)) →
    w.findSwapSpend (time + 3 * quiets) args.swapKey = none →
    args.unlockHeight ≤ w.height (time + 3 * quiets + 1) →
    MakerWorld.quietTrace quiets ++ [.scrape, .readHeight, .mineRefund args.swapKey
      (w.mineRefund (time + 3 * quiets + 2) args.swapKey st.obxAmount st.fee
        st.unlockHeight).isOk] <+:
      (w.resumeMakerRecovery S (quiets + (rounds + 1)) st).effects time

/-- The restart keeps the session, holds the maker's shares and the swap key, and
with the released half what a sweep needs, and drives the swap to its end. -/
def Recovers (S : Suite Scalar Point) (w : MakerWorld Scalar Point)
    (args : Maker.FundArgs Scalar Point) (s : Stopped Scalar Point) : Prop :=
  ∃ st maker, s.disk = some st ∧ resumeAction st = .redrive ∧ resumeMaker S st = .ok maker ∧
    maker.b = w.b ∧ maker.sB = w.sB ∧ maker.st.swapKey = some args.swapKey ∧
    (∀ coreHash, s.released = some coreHash →
      maker.st.coSignedCoreHash = coreHash ∧ maker.st.peerClaimHalf.isSome) ∧
    st.Redrives S args s.released

/-- A state from which a funding can be recovered. -/
structure SwapState.Backup (S : Suite Scalar Point) (st origin : SwapState Scalar Point)
    (args : Maker.FundArgs Scalar Point) : Prop where
  state : st.Coherent S origin
  keys : ∃ agreed, st.agreed = some agreed ∧ args.claimKey = agreed.claimKey ∧
    args.claimR = agreed.aggNonceR ∧ args.claimT = agreed.peerXNOShare
  swapKey : st.swapKey = some args.swapKey
  unlockHeight : st.unlockHeight = args.unlockHeight
  phase : st.phase = .funded ∨ st.phase = .xnoLock

/-- A state that records the co-signature of a core hash. -/
structure SwapState.Records (S : Suite Scalar Point) (st : SwapState Scalar Point)
    (coreHash : Bytes) : Prop where
  phase : st.phase = .xnoLock
  hash : st.coSignedCoreHash = coreHash
  proper : coreHash ≠ []
  half : ∃ half, st.peerClaimHalf = some half ∧
    ∀ maker : Maker Scalar Point, maker.st = st → maker.verifyTakerHalf S half coreHash = some true

theorem Maker.sweepCall_eq {S : Suite Scalar Point} {m : Maker Scalar Point}
    {sig : FullSig Scalar Point} {secret : Scalar} {agreed : Agreed Point}
    (phase : m.st.phase = .xnoLock) (known : m.st.agreed = some agreed)
    (recovered : m.recoverSecret S sig = .ok secret)
    (share : S.base secret = agreed.peerXNOShare)
    (account : S.base (secret + m.sB) = agreed.xnoAccountPub) :
    m.sweepCall S sig = some (secret + m.sB) := by
  simp [sweepCall, phase, recovered, known, share, account]

/-- A claim for the recorded core hash yields the account's secret. -/
theorem SwapState.Backup.sweepCall {S : Suite Scalar Point} {origin : SwapState Scalar Point}
    {args : Maker.FundArgs Scalar Point} {coreHash : Bytes} {maker : Maker Scalar Point}
    {sig : FullSig Scalar Point} (coherent : maker.Coherent S origin)
    (backup : maker.st.Backup S origin args) (records : maker.st.Records S coreHash)
    (claimed : args.ClaimedBy S coreHash sig) :
    ∃ agreed secret, maker.st.agreed = some agreed ∧ S.base secret = agreed.xnoAccountPub ∧
      agreed.xnoAccountPub = args.claimT + S.base origin.ownShareXNO ∧
      maker.sweepCall S sig = some secret := by
  obtain ⟨agreed, known, claimKey, claimR, claimT⟩ := backup.keys
  obtain ⟨half, stored, verified⟩ := records.half
  have signed : Maker.Signed S origin maker half :=
    ⟨coherent, by rw [records.hash]; exact records.proper, stored,
      by rw [records.hash]; exact verified maker rfl⟩
  have joint := backup.state.joint agreed known
  have own : maker.st.ownShareXNO = origin.ownShareXNO := by
    have same := backup.state.same
    simp only [SwapState.identity, Prod.mk.injEq] at same
    exact same.2.2.2.1
  obtain ⟨bound, accepted⟩ := claimed
  rw [claimR, claimT] at bound
  rw [claimKey, ← records.hash] at accepted
  obtain ⟨secret, recovered, share, account⟩ := signed.recovers known joint.adaptor bound accepted
  exact ⟨agreed, secret + maker.sB, known, account, by rw [joint.account, claimT, own],
    Maker.sweepCall_eq records.phase known recovered share account⟩

/-- A backup that records what was released drives the swap to its end. -/
theorem SwapState.Backup.redrives {S : Suite Scalar Point} {st origin : SwapState Scalar Point}
    {args : Maker.FundArgs Scalar Point} {released : Option Bytes} {maker : Maker Scalar Point}
    (backup : st.Backup S origin args)
    (records : ∀ coreHash, released = some coreHash → st.Records S coreHash)
    (resumed : resumeMaker S st = .ok maker) : st.Redrives S args released := by
  obtain ⟨coherent, state⟩ := Maker.Coherent.resume backup.state resumed
  refine ⟨?_, ?_⟩
  · intro w time quiets rounds sig coreHash quiet mined sent claimed
    obtain ⟨agreed, secret, known, account, -, call⟩ := SwapState.Backup.sweepCall coherent
      (by rw [state]; exact backup) (by rw [state]; exact records coreHash sent) claimed
    rw [state] at known
    refine ⟨agreed, secret, known, account, ?_⟩
    rw [← state] at quiet ⊢
    have seen : maker.st.swapKey.bind (w.findSwapSpend (time + 3 * quiets)) = some sig := by
      rw [state, backup.swapKey]
      exact mined
    have swept := MakerWorld.makerSweep_claim rounds seen call
    have trace : (w.makerSweep S (quiets + (rounds + 1)) maker).effects time =
        MakerWorld.quietTrace quiets ++
          (w.makerSweep S (rounds + 1) maker).effects (time + 3 * quiets) :=
      congrArg Prod.fst (MakerWorld.makerSweep_quiets quiets (rounds + 1) quiet)
    have begins : (w.makerSweep S (quiets + (rounds + 1)) maker).effects time <+:
        (w.resumeMakerRecovery S (quiets + (rounds + 1)) maker.st).effects time := by
      rw [MakerWorld.resumeMakerRecovery, state, resumed]
      exact (Driver.effects_bind_prefix _ _ time).trans (Driver.effects_bind_prefix _ _ time)
    rw [trace] at begins
    exact ((List.prefix_append_right_inj _).mpr swept).trans begins
  · intro w time quiets rounds quiet unclaimed reached
    rw [← state] at quiet ⊢
    have unseen : maker.st.swapKey.bind (w.findSwapSpend (time + 3 * quiets)) = none := by
      rw [state, backup.swapKey]
      exact unclaimed
    have closed := MakerWorld.makerSweep_closed (S := S) rounds unseen
      (by rw [state, backup.unlockHeight]; exact reached)
    have ended := MakerWorld.makerSweep_quiets (S := S) quiets (rounds + 1) quiet
    rw [closed] at ended
    have refundable : maker.refundCall = some args.swapKey := by
      rw [Maker.refundCall, state, backup.swapKey]
      rcases backup.phase with phase | phase <;> simp [phase]
    have refund : [.mineRefund args.swapKey (w.mineRefund (time + 3 * quiets + 2) args.swapKey
        maker.st.obxAmount maker.st.fee maker.st.unlockHeight).isOk] <+:
        (w.makerRefund maker).effects (time + 3 * quiets + 2) := by
      simp [MakerWorld.makerRefund, refundable]
    have begins : (w.watchStage S (quiets + (rounds + 1)) maker).effects time <+:
        (w.resumeMakerRecovery S (quiets + (rounds + 1)) maker.st).effects time := by
      rw [MakerWorld.resumeMakerRecovery, state, resumed]
      exact Driver.effects_bind_prefix _ _ time
    refine List.IsPrefix.trans ?_ begins
    rw [MakerWorld.watchStage, Driver.effects_bind_ok ended]
    rw [List.length_append, MakerWorld.quietTrace_length, List.append_assoc]
    refine (List.prefix_append_right_inj _).mpr ?_
    refine (List.prefix_append_right_inj
      ([.scrape, .readHeight] : List (MakerEffect Scalar Point))).mpr ?_
    exact refund.trans (Driver.effects_bind_prefix _ _ _)

/-! ## What is on disk at every point -/

/-- How the disk stands to a funding that is at stake. -/
structure Stopped.Covers (S : Suite Scalar Point) (origin : SwapState Scalar Point)
    (s : Stopped Scalar Point) (args : Maker.FundArgs Scalar Point) : Prop where
  unsaved : s.fundingSaved = false → ∀ st, s.disk = some st → st.phase = .init
  saved : s.fundingSaved = true → ∃ st, s.disk = some st ∧ st.Backup S origin args ∧
    (s.coSignSaved = false → st.peerClaimHalf = none) ∧
    (s.coSignSaved = true → ∃ coreHash, s.coSigned = some coreHash ∧ st.Records S coreHash)
  sent : ∀ coreHash, s.released = some coreHash → s.coSigned = some coreHash

/-- Whatever is at stake is covered. -/
def Stopped.Consistent (S : Suite Scalar Point) (origin : SwapState Scalar Point)
    (s : Stopped Scalar Point) : Prop :=
  ∀ args, s.atStake = some args → s.Covers S origin args

/-- Nothing has been funded yet. -/
structure Stopped.Unfunded (s : Stopped Scalar Point) : Prop where
  atStake : s.atStake = none
  coSigned : s.coSigned = none
  released : s.released = none
  refundAsked : s.refundAsked = false
  disk : ∀ st, s.disk = some st → st.phase = .init

/-- A funding is at stake, the maker holds what recovers it and has signed nothing. -/
structure Stopped.Live (S : Suite Scalar Point) (origin : SwapState Scalar Point)
    (args : Maker.FundArgs Scalar Point) (maker : Maker Scalar Point)
    (s : Stopped Scalar Point) : Prop where
  funded : s.funded = some args
  atStake : s.atStake = some args
  coSigned : s.coSigned = none
  released : s.released = none
  refundAsked : s.refundAsked = false
  covers : s.Covers S origin args
  coherent : maker.Coherent S origin
  backup : maker.st.Backup S origin args
  unsigned : maker.st.peerClaimHalf = none
  locked : maker.st.xnoLockID ≠ "" → maker.st.phase = .xnoLock

namespace Stopped

variable {S : Suite Scalar Point} {origin : SwapState Scalar Point}
  {args : Maker.FundArgs Scalar Point} {maker : Maker Scalar Point} {s : Stopped Scalar Point}

theorem Consistent.of_settled (settled : s.atStake = none) : s.Consistent S origin := by
  intro args stake
  rw [settled] at stake
  cases stake

theorem Consistent.refused (start : s.Consistent S origin) (lockID : String) (secret : Scalar) :
    (s.step (.sweep lockID secret false)).Consistent S origin :=
  fun args stake => ⟨(start args stake).unsaved, (start args stake).saved, (start args stake).sent⟩

theorem Live.consistent (live : s.Live S origin args maker) : s.Consistent S origin := by
  intro args' stake
  obtain rfl : args = args' := Option.some.inj (live.atStake.symm.trans stake)
  exact live.covers

theorem Live.save (live : s.Live S origin args maker) :
    (s.step (.save maker.st true)).Live S origin args maker := by
  have nothing : (s.step (.save maker.st true)).coSignSaved = false := by
    simp [step, live.coSigned]
  refine ⟨live.funded, live.atStake, live.coSigned, live.released, live.refundAsked,
    ⟨?_, ?_, live.covers.sent⟩, live.coherent, live.backup, live.unsigned, live.locked⟩
  · intro unsaved
    simp [step, live.atStake] at unsaved
  · intro _
    refine ⟨maker.st, rfl, live.backup, fun _ => live.unsigned, fun saved => ?_⟩
    rw [nothing] at saved
    cases saved

/-- A restart from what a stop leaves behind recovers exactly what was saved. -/
theorem Covers.recovers_iff {w : MakerWorld Scalar Point}
    (covers : s.Covers S origin args) (role : origin.role = .maker)
    (b : origin.ownShareClaim = w.b) (sB : origin.ownShareXNO = w.sB) :
    Recovers S w args s ↔ s.Saved := by
  constructor
  · rintro ⟨st, maker, disk, redrives, resumed, -, -, -, needed, -⟩
    have funded : s.fundingSaved = true := by
      by_contra unsaved
      have phase := covers.unsaved (by simpa using unsaved) st disk
      simp only [resumeAction, phase] at redrives
      split_ifs at redrives
    refine ⟨funded, fun sent => ?_⟩
    obtain ⟨coreHash, sent⟩ := Option.isSome_iff_exists.mp sent
    obtain ⟨-, half⟩ := needed coreHash sent
    obtain ⟨st', disk', backup, unsigned, -⟩ := covers.saved funded
    obtain rfl : st' = st := Option.some.inj (disk'.symm.trans disk)
    obtain ⟨-, state⟩ := Maker.Coherent.resume backup.state resumed
    by_contra unsaved
    rw [state, unsigned (by simpa using unsaved)] at half
    cases half
  · rintro ⟨funded, signed⟩
    obtain ⟨st, disk, backup, -, recorded⟩ := covers.saved funded
    have same := backup.state.same
    simp only [SwapState.identity, Prod.mk.injEq] at same
    obtain ⟨-, own, claim, xno, -⟩ := same
    have records : ∀ coreHash, s.released = some coreHash → st.Records S coreHash := by
      intro coreHash sent
      obtain ⟨coreHash', coSigned, record⟩ := recorded (signed (by rw [sent]; rfl))
      obtain rfl : coreHash' = coreHash :=
        Option.some.inj (coSigned.symm.trans (covers.sent coreHash sent))
      exact record
    obtain ⟨maker, resumed⟩ : ∃ maker, resumeMaker S st = .ok maker :=
      ⟨_, if_neg (not_not.mpr (own.trans role))⟩
    obtain ⟨coherent, state⟩ := Maker.Coherent.resume backup.state resumed
    refine ⟨st, maker, disk, ?_, resumed, ?_, ?_, ?_, ?_, backup.redrives records resumed⟩
    · rcases backup.phase with phase | phase <;> simp [resumeAction, own, role, phase]
    · rw [coherent.holds.1, state, claim, b]
    · rw [coherent.holds.2, state, xno, sB]
    · rw [state, backup.swapKey]
    · intro coreHash sent
      obtain ⟨half, stored, -⟩ := (records coreHash sent).half
      rw [state]
      exact ⟨(records coreHash sent).hash, by rw [stored]; rfl⟩

end Stopped

/-! ## Calls and their answers -/

namespace Maker

variable {S : Suite Scalar Point} {m : Maker Scalar Point}

section Funding

omit [DecidableEq Point]

variable {k : Scalar} {height unlockHeight : UInt64} {swapKey : Bytes}

theorem fund_of_no_call (none : m.fundCall S k height swapKey unlockHeight = none)
    (answer : FundArgs Scalar Point → Except String Unit) :
    ∃ error, m.fund S k height swapKey answer unlockHeight = (.error error, m) := by
  obtain failed | ⟨init, agreed, T, opened, known, adaptor, window, -⟩ :=
    m.fund_cases S k height swapKey answer unlockHeight
  · exact failed
  · simp [fundCall, window, opened, known, adaptor] at none

theorem fund_of_call {args : FundArgs Scalar Point}
    (call : m.fundCall S k height swapKey unlockHeight = some args) :
    (∃ init agreed T, m.st.agreed = some agreed ∧ m.st.adaptorT = some T ∧
      args = m.fundArgs S k swapKey unlockHeight init agreed T) ∧
    ∀ answer : FundArgs Scalar Point → Except String Unit,
      (∃ text error, answer args = .error text ∧
        m.fund S k height swapKey answer unlockHeight = (.error error, m)) ∨
      ∃ funded, answer args = .ok () ∧ m.fund S k height swapKey answer unlockHeight =
        (.ok funded, m.fundedAs swapKey unlockHeight) := by
  rw [fundCall] at call
  split_ifs at call with window
  split at call
  · rename_i init agreed T opened known adaptor
    obtain rfl := Option.some.inj call
    refine ⟨⟨init, agreed, T, known, adaptor, rfl⟩, fun answer => ?_⟩
    cases answered : answer (m.fundArgs S k swapKey unlockHeight init agreed T) with
    | error text =>
      refine .inl ⟨text, .failed s!"swapsession: fund OBX swap: {text}", rfl, ?_⟩
      simp only [fund, opened, if_neg window, known, adaptor, answered]
    | ok done =>
      refine .inr ⟨{ swapID := m.st.swapID, swapKey, unlockHeight }, rfl, ?_⟩
      simp only [fund, fundedAs, opened, if_neg window, known, adaptor, answered]
  · cases call

end Funding

omit [CommRing Scalar] [AddCommGroup Point] [DecidableEq Point] in
theorem refund_ok {answer : Bytes → UInt64 → UInt64 → UInt64 → Except String Unit}
    {next : Maker Scalar Point} {swapKey : Bytes} (call : m.refundCall = some swapKey)
    (refunded : m.refund answer = (.ok (), next)) :
    answer swapKey m.st.obxAmount m.st.fee m.st.unlockHeight = .ok () := by
  rw [refundCall] at call
  split_ifs at call with settled
  rw [refund, call] at refunded
  simp only [if_neg settled] at refunded
  split at refunded
  · cases refunded
  · assumption

theorem sweepXNOIndependent_ok_iff {sig : FullSig Scalar Point} {secret : Scalar}
    (call : m.sweepCall S sig = some secret) (answer : Sweep Scalar) :
    (m.sweepXNOIndependent S answer sig).1 = .ok () ↔
      answer m.st.xnoLockID secret m.st.sweepDest = .ok () := by
  rw [sweepCall] at call
  split_ifs at call with phase
  split at call
  · cases call
  rename_i recovered found
  split_ifs at call with passes
  obtain rfl := Option.some.inj call
  obtain ⟨share, account⟩ := passes
  simp only [sweepXNOIndependent, if_neg phase, found, finishSweep, share, account, ne_eq,
    not_true_eq_false, if_false]
  cases answer m.st.xnoLockID (recovered + m.sB) m.st.sweepDest with
  | error text => exact ⟨by rintro ⟨⟩, by rintro ⟨⟩⟩
  | ok done => exact ⟨fun _ => rfl, fun _ => rfl⟩

end Maker

/-! ## The stages of the driver -/

namespace MakerWorld

open Driver Stopped

variable {w : MakerWorld Scalar Point} {S : Suite Scalar Point} {origin : SwapState Scalar Point}

/-- How a session is given up: before the maker's half was sent, or because sending
it failed. -/
def GivesUp (w : MakerWorld Scalar Point) (S : Suite Scalar Point)
    (origin : SwapState Scalar Point) (s : Stopped Scalar Point) : Prop :=
  s.Consistent S origin ∧
    (s.released = none ∨ ∃ time text, w.sent time .claimPreSig = .error text)

section Quiet

omit [CommRing Scalar] [AddCommGroup Point] [DecidableEq Point]

theorem ask_quiet {α : Type} {effect : MakerEffect Scalar Point} {answer : Nat → α}
    {kept holds : Stopped Scalar Point → Prop} {failed : Assertion (Stopped Scalar Point)}
    (quiet : ∀ s : Stopped Scalar Point, s.step effect = s) (implies : ∀ s, holds s → kept s) :
    Meets Stopped.step (fun _ => kept) (fun _ => holds) (ask (fun _ => effect) answer)
      (fun _ _ => holds) failed := by
  refine Meets.ask fun _ s start => ?_
  rw [quiet]
  exact ⟨implies s start, implies s start, start⟩

theorem send_quiet {kind : Kind} {kept holds : Stopped Scalar Point → Prop}
    {failed : Assertion (Stopped Scalar Point)} (other : kind ≠ .claimPreSig)
    (implies : ∀ s, holds s → kept s) :
    Meets Stopped.step (fun _ => kept) (fun _ => holds) (w.send kind) (fun _ _ => holds) failed := by
  refine ask_quiet (fun s => ?_) implies
  cases kind with
  | claimPreSig => exact absurd rfl other
  | _ => rfl

theorem abort_quiet {kept holds : Stopped Scalar Point → Prop}
    {failed : Assertion (Stopped Scalar Point)} (implies : ∀ s, holds s → kept s) :
    Meets Stopped.step (fun _ => kept) (fun _ => holds) w.abort (fun _ _ => holds) failed :=
  (send_quiet (by decide) implies).bind fun _ => Meets.pure fun _ s start => ⟨implies s start, start⟩

theorem recv_quiet {kept holds : Stopped Scalar Point → Prop}
    {failed : Assertion (Stopped Scalar Point)} (implies : ∀ s, holds s → kept s) :
    Meets Stopped.step (fun _ => kept) (fun _ => holds) w.recv (fun _ _ => holds) failed := by
  refine (ask_quiet (fun _ => rfl) implies).bind fun answer => ?_
  cases answer with
  | error text => exact Meets.pure fun _ s start => ⟨implies s start, start⟩
  | ok env =>
    dsimp only
    split_ifs
    · exact Meets.pure fun _ s start => ⟨implies s start, start⟩
    · exact Meets.pure fun _ s start => ⟨implies s start, start⟩

/-- A write either takes place or changes nothing. -/
theorem save_meets {st : SwapState Scalar Point} {kept holds : Stopped Scalar Point → Prop}
    {failed : Assertion (Stopped Scalar Point)} (implies : ∀ s, holds s → kept s)
    (written : ∀ s, holds s → holds (s.step (.save st true))) :
    Meets Stopped.step (fun _ => kept) (fun _ => holds) (w.save st) (fun _ _ => holds) failed := by
  have asked : Meets Stopped.step (fun _ => kept) (fun _ => holds)
      (ask (fun time => (.save st (w.saved time).isOk : MakerEffect Scalar Point)) w.saved)
      (fun _ _ => holds) failed := by
    refine Meets.ask fun time s start => ?_
    have next : holds (s.step (.save st (w.saved time).isOk)) := by
      cases (w.saved time).isOk with
      | false => exact start
      | true => exact written s start
    exact ⟨implies s start, implies _ next, next⟩
  exact asked.bind fun _ => Meets.pure fun _ s done => ⟨implies s done, done⟩

end Quiet

/-- A refund settles the stake before it is recorded, and sends nothing. -/
theorem makerRefund_meets (maker : Maker Scalar Point) (frame : Option Bytes → Prop)
    {failed : Assertion (Stopped Scalar Point)} :
    Meets Stopped.step (fun _ => Consistent S origin)
      (fun _ s => s.Consistent S origin ∧ frame s.released) (w.makerRefund maker)
      (fun _ _ s => s.Consistent S origin ∧ frame s.released) failed := by
  rw [makerRefund]
  cases call : maker.refundCall with
  | none => exact Meets.pure fun _ _ start => ⟨start.1, start⟩
  | some swapKey =>
    have asked : Meets Stopped.step (fun _ => Consistent S origin)
        (fun _ s => s.Consistent S origin ∧ frame s.released)
        (ask
          (fun time => (.mineRefund swapKey (w.mineRefund time swapKey maker.st.obxAmount
            maker.st.fee maker.st.unlockHeight).isOk : MakerEffect Scalar Point))
          (fun time => w.mineRefund time))
        (fun answer _ s => (s.Consistent S origin ∧ frame s.released) ∧
          (answer swapKey maker.st.obxAmount maker.st.fee maker.st.unlockHeight = .ok () →
            s.atStake = none))
        failed := by
      refine Meets.ask fun time s start => ?_
      cases answered : w.mineRefund time swapKey maker.st.obxAmount maker.st.fee
          maker.st.unlockHeight with
      | error text =>
        have kept : Consistent S origin (s.step (.mineRefund swapKey false)) :=
          fun args stake => ⟨(start.1 args stake).unsaved, (start.1 args stake).saved,
            (start.1 args stake).sent⟩
        exact ⟨start.1, kept, ⟨kept, start.2⟩, nofun⟩
      | ok done =>
        have settled : Consistent S origin (s.step (.mineRefund swapKey true)) :=
          .of_settled rfl
        exact ⟨start.1, settled, ⟨settled, start.2⟩, fun _ => rfl⟩
    refine asked.bind fun answer => ?_
    split
    · exact Meets.pure fun _ _ start => ⟨start.1.1, start.1⟩
    · rename_i next refunded
      have mined := Maker.refund_ok call refunded
      have saved : Meets Stopped.step (fun _ => Consistent S origin)
          (fun _ s => s.atStake = none ∧ frame s.released) (w.save next.st)
          (fun _ _ s => s.atStake = none ∧ frame s.released) failed :=
        save_meets (fun _ start => .of_settled start.1) (fun _ start => start)
      exact saved.mono (fun _ _ start => ⟨start.2 mined, start.1.2⟩)
        (fun _ _ _ done => ⟨.of_settled done.1, done.2⟩) (fun _ _ done => done)

/-- A refund gives the swap up. -/
theorem refundAndFail_meets {α : Type} (maker : Maker Scalar Point) (text : String)
    {post : α → Assertion (Stopped Scalar Point)} :
    Meets Stopped.step (fun _ => Consistent S origin) (fun _ => w.GivesUp S origin)
      (w.refundAndFail maker text : Driver (MakerEffect Scalar Point) α) post
      (fun _ => w.GivesUp S origin) :=
  (makerRefund_meets maker
    (fun released => released = none ∨ ∃ time text, w.sent time .claimPreSig = .error text)).bind
      fun _ => Meets.fail fun _ _ start => ⟨start.1, start⟩

theorem await_meets {α : Type} {maker : Maker Scalar Point} {want : Kind}
    {parse : Bytes → Except String α} {holds : Stopped Scalar Point → Prop}
    (implies : ∀ s, holds s → w.GivesUp S origin s) :
    Meets Stopped.step (fun _ => Consistent S origin) (fun _ => holds) (w.await maker want parse)
      (fun value _ s => (∃ payload, parse payload = .ok value) ∧ holds s)
      (fun _ => w.GivesUp S origin) := by
  refine (recv_quiet fun s start => (implies s start).1).bind fun answer => ?_
  cases answer with
  | error text =>
    exact (refundAndFail_meets maker text).mono (fun _ s start => implies s start)
      (fun _ _ _ done => done) (fun _ _ done => done)
  | ok env =>
    dsimp only
    split
    · exact (refundAndFail_meets maker _).mono (fun _ s start => implies s start)
        (fun _ _ _ done => done) (fun _ _ done => done)
    · rename_i value parsed
      exact Meets.pure fun _ s start =>
        ⟨(implies s start).1, ⟨env.payload, (TakerWorld.parseKind_ok parsed).2⟩, start⟩

/-- A sweep that goes through settles the stake. -/
theorem sweepFromChain_meets (maker : Maker Scalar Point)
    {failed : Assertion (Stopped Scalar Point)} :
    Meets Stopped.step (fun _ => Consistent S origin) (fun _ => Consistent S origin)
      (w.sweepFromChain S maker)
      (fun outcome _ s => Consistent S origin s ∧ (outcome.1 = true → s.atStake = none))
      failed := by
  refine (ask_quiet (fun _ => rfl) fun _ start => start).bind fun found => ?_
  cases found with
  | none => exact Meets.pure fun _ _ start => ⟨start, start, nofun⟩
  | some sig =>
    dsimp only
    cases call : maker.sweepCall S sig with
    | none => exact Meets.pure fun _ _ start => ⟨start, start, nofun⟩
    | some secret =>
      have asked : Meets Stopped.step (fun _ => Consistent S origin)
          (fun _ => Consistent S origin)
          (ask
            (fun time => (.sweep maker.st.xnoLockID secret
              (w.sweep time maker.st.xnoLockID secret maker.st.sweepDest).isOk :
              MakerEffect Scalar Point))
            (fun time => w.sweep time))
          (fun answer _ s => Consistent S origin s ∧
            (answer maker.st.xnoLockID secret maker.st.sweepDest = .ok () →
              s.atStake = none))
          failed := by
        refine Meets.ask fun time s start => ?_
        cases answered : w.sweep time maker.st.xnoLockID secret maker.st.sweepDest with
        | error text =>
          have refused := start.refused maker.st.xnoLockID secret
          exact ⟨start, refused, refused, nofun⟩
        | ok done =>
          have settled : Consistent S origin
              (s.step (.sweep maker.st.xnoLockID secret true)) := .of_settled rfl
          exact ⟨start, settled, settled, fun _ => rfl⟩
      refine asked.bind fun answer => Meets.pure fun _ s start => ⟨start.1, start.1, ?_⟩
      intro swept
      refine start.2 ((Maker.sweepXNOIndependent_ok_iff call answer).mp ?_)
      cases outcome : (maker.sweepXNOIndependent S answer sig).1 with
      | error error => simp [outcome, Except.isOk, Except.toBool] at swept
      | ok done => rfl

/-- A sweep keeps the record consistent. -/
theorem makerSweep_meets (rounds : Nat) (maker : Maker Scalar Point)
    {failed : Assertion (Stopped Scalar Point)} :
    Meets Stopped.step (fun _ => Consistent S origin) (fun _ => Consistent S origin)
      (w.makerSweep S rounds maker)
      (fun outcome _ s => Consistent S origin s ∧ (outcome.1 = .swept → s.atStake = none))
      failed := by
  induction rounds generalizing maker with
  | zero => exact Meets.pure fun _ _ start => ⟨start, start, nofun⟩
  | succ rounds ih =>
    refine (sweepFromChain_meets maker).bind fun outcome => ?_
    obtain ⟨swept, maker⟩ := outcome
    cases swept with
    | true => exact Meets.pure fun _ _ start => ⟨start.1, start.1, fun _ => start.2 rfl⟩
    | false =>
      refine (ask_quiet (fun _ => rfl) fun _ start => start.1).bind fun height => ?_
      dsimp only
      split_ifs with closed
      · exact Meets.pure fun _ _ start => ⟨start.1, start.1, nofun⟩
      · refine (ask_quiet (fun _ => rfl) fun _ start => start.1).bind fun stop => ?_
        cases stop with
        | true => exact Meets.pure fun _ _ start => ⟨start.1, start.1, nofun⟩
        | false =>
          exact (ih maker).mono (fun _ _ start => start.1) (fun _ _ _ done => done)
            (fun _ _ done => done)

/-- The watch keeps the record consistent. -/
theorem watchStage_meets (rounds : Nat) (maker : Maker Scalar Point)
    {failed : Assertion (Stopped Scalar Point)} :
    Meets Stopped.step (fun _ => Consistent S origin) (fun _ => Consistent S origin)
      (w.watchStage S rounds maker) (fun _ _ => Consistent S origin) failed := by
  refine (makerSweep_meets rounds maker).bind fun outcome => ?_
  obtain ⟨ended, maker⟩ := outcome
  cases ended with
  | swept =>
    have saved : Meets Stopped.step (fun _ => Consistent S origin)
        (fun _ s => s.atStake = none) (w.save maker.st) (fun _ _ s => s.atStake = none) failed :=
      save_meets (fun _ settled => .of_settled settled) (fun _ settled => settled)
    refine (saved.mono (fun _ _ start => start.2 rfl) (fun _ _ _ done => done)
      (fun _ _ done => done)).bind fun _ => ?_
    exact Meets.pure fun _ _ settled => ⟨.of_settled settled, .of_settled settled⟩
  | windowClosed =>
    refine ((makerRefund_meets maker fun _ => True).mono (fun _ _ start => ⟨start.1, trivial⟩)
      (fun _ _ _ done => done) (fun _ _ done => done)).bind fun _ => ?_
    exact Meets.pure fun _ _ start => ⟨start.1, start.1⟩
  | stopping => exact Meets.pure fun _ _ start => ⟨start.1, start.1⟩
  | watching => exact Meets.pure fun _ _ start => ⟨start.1, start.1⟩

/-- A maker that has agreed on the joint keys and done nothing else. -/
structure Opened (S : Suite Scalar Point) (origin : SwapState Scalar Point)
    (maker : Maker Scalar Point) : Prop where
  coherent : maker.Coherent S origin
  phase : maker.st.phase = .init
  unsigned : maker.st.peerClaimHalf = none
  unlocked : maker.st.xnoLockID = ""

theorem GivesUp.of_unfunded {s : Stopped Scalar Point} (unfunded : s.Unfunded) :
    w.GivesUp S origin s :=
  ⟨.of_settled unfunded.atStake, .inl unfunded.released⟩

theorem GivesUp.of_live {s : Stopped Scalar Point} {args : Maker.FundArgs Scalar Point}
    {maker : Maker Scalar Point} (live : s.Live S origin args maker) : w.GivesUp S origin s :=
  ⟨live.consistent, .inl live.released⟩

/-- The handshake funds nothing. -/
theorem handshakeStage_meets (swapID : Bytes) (init : Init Scalar Point) :
    let start : Maker Scalar Point :=
      newMaker w.b w.sB swapID init.obxAmount init.xnoAmount w.fee w.sweepDest
    Meets Stopped.step (fun _ => Consistent S start.st) (fun _ s => s = {})
      (w.handshakeStage S swapID init)
      (fun maker _ s => Opened S start.st maker ∧ s.Unfunded) (fun _ => w.GivesUp S start.st) := by
  intro start
  have fresh : ∀ s : Stopped Scalar Point, s = {} → s.Unfunded := by
    rintro s rfl
    exact ⟨rfl, rfl, rfl, rfl, nofun⟩
  have settled : ∀ s : Stopped Scalar Point, s.Unfunded → Consistent S start.st s :=
    fun _ unfunded => .of_settled unfunded.atStake
  have coherent : start.Coherent S start.st := (MakerLog.start_coherent w.b w.sB swapID
    init.obxAmount init.xnoAmount w.fee w.sweepDest).maker
  rw [handshakeStage]
  obtain ⟨error, failed, -⟩ | ⟨mc, agreed, opens, -⟩ :=
    Maker.handleInit_cases S coherent.holds w.commitProof init
  · generalize start.handleInit S w.commitProof init = answer at failed
    obtain ⟨result, next⟩ := answer
    obtain rfl : result = .error error := failed
    refine (abort_quiet fun s start => settled s (fresh s start)).bind fun _ => ?_
    exact Meets.fail fun _ s start => ⟨settled s (fresh s start), .of_unfunded (fresh s start)⟩
  · rw [agreed]
    have opened : Opened S start.st (start.agree S init) :=
      ⟨coherent.moves (.agree init opens.bound), rfl, rfl, rfl⟩
    have saved : Meets Stopped.step (fun _ => Consistent S start.st) (fun _ => Unfunded)
        (w.save (start.agree S init).st) (fun _ _ => Unfunded) (fun _ => w.GivesUp S start.st) := by
      refine save_meets settled fun s unfunded => ?_
      refine ⟨unfunded.atStake, unfunded.coSigned, unfunded.released, unfunded.refundAsked,
        fun st written => ?_⟩
      obtain rfl := Option.some.inj written
      rfl
    refine (saved.mono (fun _ => fresh) (fun _ _ _ done => done) (fun _ _ done => done)).bind
      fun _ => ?_
    refine (send_quiet (by decide) settled).bind fun answer => ?_
    cases answer with
    | error text => exact Meets.fail fun _ s start => ⟨settled s start, .of_unfunded start⟩
    | ok done => exact Meets.pure fun _ s start => ⟨settled s start, opened, start⟩

omit [DecidableEq Point] in
theorem Opened.backup {maker : Maker Scalar Point} (opened : Opened S origin maker) {k : Scalar}
    {swapKey : Bytes} {unlock : UInt64} {init : Init Scalar Point} {agreed : Agreed Point}
    {T : Point} (known : maker.st.agreed = some agreed) (adaptor : maker.st.adaptorT = some T) :
    (maker.fundedAs swapKey unlock).st.Backup S origin
      (maker.fundArgs S k swapKey unlock init agreed T) := by
  have joint := opened.coherent.state.joint agreed known
  have moved : (maker.fundedAs swapKey unlock).Coherent S origin :=
    opened.coherent.moves (.progress _ _ _ maker.st.xnoLockID)
  have bound : T = agreed.peerXNOShare := Option.some.inj (adaptor.symm.trans joint.adaptor)
  exact ⟨moved.state, ⟨agreed, known, rfl, rfl, bound⟩, rfl, rfl, .inl rfl⟩

theorem Opened.live {maker : Maker Scalar Point} {s : Stopped Scalar Point}
    {args : Maker.FundArgs Scalar Point} {swapKey : Bytes} {unlock : UInt64}
    (opened : Opened S origin maker) (unfunded : s.Unfunded)
    (backup : (maker.fundedAs swapKey unlock).st.Backup S origin args) :
    (s.step (.fund args true)).Live S origin args (maker.fundedAs swapKey unlock) := by
  refine ⟨rfl, rfl, unfunded.coSigned, unfunded.released, unfunded.refundAsked,
    ⟨fun _ => unfunded.disk, nofun, ?_⟩, opened.coherent.moves (.progress _ _ _ maker.st.xnoLockID),
    backup, opened.unsigned, fun locked => absurd opened.unlocked locked⟩
  intro coreHash sent
  have nothing := unfunded.released
  rw [show s.released = some coreHash from sent] at nothing
  cases nothing

/-- The funding is saved before it is made. -/
theorem fundStage_meets {maker : Maker Scalar Point} (opened : Opened S origin maker) :
    Meets Stopped.step (fun _ => Consistent S origin) (fun _ => Unfunded) (w.fundStage S maker)
      (fun maker _ s => ∃ args, args.swapKey = w.swapKey ∧ s.Live S origin args maker)
      (fun _ => w.GivesUp S origin) := by
  have settled : ∀ s : Stopped Scalar Point, s.Unfunded → Consistent S origin s :=
    fun _ unfunded => .of_settled unfunded.atStake
  refine (ask_quiet (fun _ => rfl) settled).bind fun first => ?_
  dsimp only
  generalize chooseUnlockHeight first = unlock
  refine (ask_quiet (fun _ => rfl) settled).bind fun second => ?_
  have gaveUp : ∀ error : SwapError,
      Meets Stopped.step (fun _ => Consistent S origin) (fun _ => Unfunded)
        (do w.abort; fail s!"Fund: {error.text}" :
          Driver (MakerEffect Scalar Point) (Maker Scalar Point))
        (fun maker _ s => ∃ args, args.swapKey = w.swapKey ∧ s.Live S origin args maker)
        (fun _ => w.GivesUp S origin) :=
    fun error => (abort_quiet settled).bind fun _ =>
      Meets.fail fun _ s start => ⟨settled s start, .of_unfunded start⟩
  cases call : maker.fundCall S w.fundProof second w.swapKey unlock with
  | none =>
    have unasked : Meets Stopped.step (fun _ => Consistent S origin) (fun _ => Unfunded)
        (w.askFunding none) (fun _ _ => Unfunded) (fun _ => w.GivesUp S origin) :=
      Meets.pure fun _ s start => ⟨settled s start, start⟩
    refine unasked.bind fun answer => ?_
    obtain ⟨error, failed⟩ := Maker.fund_of_no_call call answer
    rw [failed]
    exact gaveUp error
  | some args =>
    obtain ⟨⟨init, agreed, T, known, adaptor, argued⟩, outcome⟩ := Maker.fund_of_call call
    have backup : (maker.fundedAs w.swapKey unlock).st.Backup S origin args := by
      rw [argued]
      exact opened.backup known adaptor
    have key : args.swapKey = w.swapKey := by
      rw [argued]
      rfl
    have asked : Meets Stopped.step (fun _ => Consistent S origin) (fun _ => Unfunded)
        (w.askFunding (some args))
        (fun answer _ s =>
          (answer args = .ok () → s.Live S origin args (maker.fundedAs w.swapKey unlock)) ∧
          (answer args ≠ .ok () → s.Unfunded))
        (fun _ => w.GivesUp S origin) := by
      refine Meets.ask fun time s start => ?_
      cases answered : w.fundSwapOut time args with
      | error text => exact ⟨settled s start, settled s start, ⟨nofun, fun _ => start⟩⟩
      | ok done =>
        have live := opened.live start backup
        exact ⟨settled s start, live.consistent, ⟨fun _ => live, fun refused => absurd rfl refused⟩⟩
    refine asked.bind fun answer => ?_
    obtain ⟨text, error, failed, refused⟩ | ⟨funded, accepted, granted⟩ := outcome answer
    · rw [refused]
      exact (gaveUp error).mono (fun _ s start => start.2 (by rw [failed]; exact nofun))
        (fun _ _ _ done => done) (fun _ _ done => done)
    · rw [granted]
      have saved : Meets Stopped.step (fun _ => Consistent S origin)
          (fun _ s => s.Live S origin args (maker.fundedAs w.swapKey unlock))
          (w.save (maker.fundedAs w.swapKey unlock).st)
          (fun _ _ s => s.Live S origin args (maker.fundedAs w.swapKey unlock))
          (fun _ => w.GivesUp S origin) :=
        save_meets (fun _ live => live.consistent) (fun _ live => live.save)
      refine (saved.mono (fun _ _ start => start.1 accepted) (fun _ _ _ done => done)
        (fun _ _ done => done)).bind fun _ => ?_
      refine (send_quiet (by decide) fun _ live => live.consistent).bind fun answer => ?_
      cases answer with
      | error text =>
        exact (refundAndFail_meets _ _).mono (fun _ _ live => .of_live live)
          (fun _ _ _ done => done) (fun _ _ done => done)
      | ok done => exact Meets.pure fun _ _ live => ⟨live.consistent, args, key, live⟩

/-- Waiting for the lock keeps the swap live. -/
theorem confirmLoop_meets {maker : Maker Scalar Point} {args : Maker.FundArgs Scalar Point}
    (msg : XNOLocked) (retries : Nat) :
    Meets Stopped.step (fun _ => Consistent S origin) (fun _ s => s.Live S origin args maker)
      (w.confirmLoop maker msg retries) (fun maker _ s => s.Live S origin args maker)
      (fun _ => w.GivesUp S origin) := by
  have gaveUp : ∀ text : String,
      Meets Stopped.step (fun _ => Consistent S origin) (fun _ s => s.Live S origin args maker)
        (do w.abort; w.refundAndFail maker text :
          Driver (MakerEffect Scalar Point) (Maker Scalar Point))
        (fun maker _ s => s.Live S origin args maker) (fun _ => w.GivesUp S origin) :=
    fun text => (abort_quiet fun _ live => live.consistent).bind fun _ =>
      (refundAndFail_meets maker text).mono (fun _ _ live => .of_live live)
        (fun _ _ _ done => done) (fun _ _ done => done)
  have confirmed : ∀ lockID, ∀ s : Stopped Scalar Point, s.Live S origin args maker →
      s.Live S origin args (maker.lockedAs lockID) := by
    intro lockID s live
    have moved : (maker.lockedAs lockID).Coherent S origin :=
      live.coherent.moves (.progress maker.st.swapKey maker.st.unlockHeight .xnoLock lockID)
    exact ⟨live.funded, live.atStake, live.coSigned, live.released, live.refundAsked, live.covers,
      moved,
      ⟨moved.state, live.backup.keys, live.backup.swapKey, live.backup.unlockHeight, .inr rfl⟩,
      live.unsigned, fun _ => rfl⟩
  induction retries with
  | zero =>
    refine (ask_quiet (fun _ => rfl) fun _ live => live.consistent).bind fun nano => ?_
    obtain ⟨error, failed⟩ | ⟨agreed, -, -, -, locked⟩ := maker.confirmXNOLock_cases nano msg
    · rw [failed]
      exact gaveUp _
    · rw [locked]
      exact Meets.pure fun _ s live => ⟨live.consistent, confirmed _ s live⟩
  | succ retries ih =>
    refine (ask_quiet (fun _ => rfl) fun _ live => live.consistent).bind fun nano => ?_
    obtain ⟨error, failed⟩ | ⟨agreed, -, -, -, locked⟩ := maker.confirmXNOLock_cases nano msg
    · rw [failed]
      cases error with
      | lockNotConfirmed =>
        refine (ask_quiet (fun _ => rfl) fun _ live => live.consistent).bind fun stop => ?_
        cases stop with
        | true => exact Meets.fail fun _ _ live => ⟨live.consistent, .of_live live⟩
        | false => exact ih
      | malformed | fundingNotVisible | nilDereference | failed => exact gaveUp _
    · rw [locked]
      exact Meets.pure fun _ s live => ⟨live.consistent, confirmed _ s live⟩

/-- Confirming the lock keeps the swap live. -/
theorem confirmStage_meets {maker : Maker Scalar Point} {args : Maker.FundArgs Scalar Point} :
    Meets Stopped.step (fun _ => Consistent S origin) (fun _ s => s.Live S origin args maker)
      (w.confirmStage maker) (fun maker _ s => s.Live S origin args maker)
      (fun _ => w.GivesUp S origin) := by
  refine (await_meets fun _ live => .of_live live).bind fun msg => Meets.assume fun _ => ?_
  refine (confirmLoop_meets msg 90).bind fun maker => ?_
  have saved : Meets Stopped.step (fun _ => Consistent S origin)
      (fun _ s => s.Live S origin args maker) (w.save maker.st)
      (fun _ _ s => s.Live S origin args maker) (fun _ => w.GivesUp S origin) :=
    save_meets (fun _ live => live.consistent) (fun _ live => live.save)
  exact saved.bind fun _ => Meets.pure fun _ _ live => ⟨live.consistent, live⟩

/-- The maker has computed its half; the maker `next` has it on record. -/
structure Signing (S : Suite Scalar Point) (origin : SwapState Scalar Point)
    (args : Maker.FundArgs Scalar Point) (coreHash : Bytes) (next : Maker Scalar Point)
    (s : Stopped Scalar Point) : Prop where
  funded : s.funded = some args
  atStake : s.atStake = some args
  coSigned : s.coSigned = some coreHash
  refundAsked : s.refundAsked = false
  covers : s.Covers S origin args
  coherent : next.Coherent S origin
  backup : next.st.Backup S origin args
  records : next.st.Records S coreHash

namespace Signing

variable {args : Maker.FundArgs Scalar Point} {coreHash : Bytes} {next : Maker Scalar Point}
  {s : Stopped Scalar Point}

theorem consistent (signing : Signing S origin args coreHash next s) : Consistent S origin s := by
  intro args' stake
  obtain rfl : args = args' := Option.some.inj (signing.atStake.symm.trans stake)
  exact signing.covers

theorem save (signing : Signing S origin args coreHash next s) :
    Signing S origin args coreHash next (s.step (.save next.st true)) := by
  refine ⟨signing.funded, signing.atStake, signing.coSigned, signing.refundAsked,
    ⟨?_, ?_, signing.covers.sent⟩, signing.coherent, signing.backup, signing.records⟩
  · intro unsaved
    simp [Stopped.step, signing.atStake] at unsaved
  · intro _
    refine ⟨next.st, rfl, signing.backup, fun unsaved => ?_, fun _ =>
      ⟨coreHash, signing.coSigned, signing.records⟩⟩
    simp [Stopped.step, signing.coSigned] at unsaved

theorem send (signing : Signing S origin args coreHash next s) :
    Signing S origin args coreHash next (s.step (.send .claimPreSig)) :=
  ⟨signing.funded, signing.atStake, signing.coSigned, signing.refundAsked,
    ⟨signing.covers.unsaved, signing.covers.saved, fun _ sent => sent⟩, signing.coherent,
    signing.backup, signing.records⟩

/-- A co-signature that was given puts the request on record. -/
theorem of_coSigns {maker : Maker Scalar Point} {req : ClaimRequest Scalar}
    {presig : ClaimPreSig Scalar} (live : s.Live S origin args maker)
    (valid : req.validate = .ok ()) (signs : Maker.CoSigns S maker req presig) :
    Signing S origin args req.coreHash (maker.record req) (s.step (.coSign req)) := by
  have moved : (maker.record req).Coherent S origin := live.coherent.moves (.coSign req)
  refine ⟨live.funded, live.atStake, rfl, live.refundAsked,
    ⟨live.covers.unsaved, fun saved => ?_, fun coreHash sent => ?_⟩, moved,
    ⟨moved.state, live.backup.keys, live.backup.swapKey, live.backup.unlockHeight,
      live.backup.phase⟩, ?_⟩
  · obtain ⟨st, disk, backup, unsigned, recorded⟩ := live.covers.saved saved
    refine ⟨st, disk, backup, unsigned, fun written => ?_⟩
    -- nothing was co-signed when the state on disk was written
    obtain ⟨coreHash, coSigned, -⟩ := recorded written
    rw [live.coSigned] at coSigned
    cases coSigned
  · have nothing := live.released
    rw [show s.released = some coreHash from sent] at nothing
    cases nothing
  · refine ⟨live.locked signs.locked, rfl, ?_, req.takerHalf, rfl, fun other same => ?_⟩
    · simpa [ClaimRequest.validate] using valid
    · rw [Maker.verifyTakerHalf, same]
      exact signs.half

end Signing

/-- The session goes on with its half on record and sent. -/
theorem coSignStage_meets {maker : Maker Scalar Point} {args : Maker.FundArgs Scalar Point} :
    Meets Stopped.step (fun _ => Consistent S origin) (fun _ s => s.Live S origin args maker)
      (w.coSignStage S maker)
      (fun next _ s => ∃ coreHash, s.released = some coreHash ∧
        Signing S origin args coreHash next s)
      (fun _ => w.GivesUp S origin) := by
  refine (await_meets fun _ live => .of_live live).bind fun req => Meets.assume fun parsed => ?_
  obtain ⟨payload, parsed⟩ := parsed
  obtain ⟨error, failed⟩ | ⟨presig, granted, signs⟩ := maker.coSignClaim_cases S req
  · rw [failed]
    exact (abort_quiet fun _ live => live.consistent).bind fun _ =>
      (refundAndFail_meets maker _).mono (fun _ _ live => .of_live live)
        (fun _ _ _ done => done) (fun _ _ done => done)
  · rw [granted]
    have valid : req.validate = .ok () := Codec.parseClaimRequest_valid parsed
    have signed : Meets Stopped.step (fun _ => Consistent S origin)
        (fun _ s => s.Live S origin args maker) (perform (.coSign req))
        (fun _ _ => Signing S origin args req.coreHash (maker.record req))
        (fun _ => w.GivesUp S origin) := by
      refine Meets.perform fun _ s live => ?_
      have signing := Signing.of_coSigns live valid signs
      exact ⟨live.consistent, signing.consistent, signing⟩
    have saved : Meets Stopped.step (fun _ => Consistent S origin)
        (fun _ => Signing S origin args req.coreHash (maker.record req))
        (w.save (maker.record req).st)
        (fun _ _ => Signing S origin args req.coreHash (maker.record req))
        (fun _ => w.GivesUp S origin) :=
      save_meets (fun _ signing => signing.consistent) (fun _ signing => signing.save)
    have sent : Meets Stopped.step (fun _ => Consistent S origin)
        (fun _ => Signing S origin args req.coreHash (maker.record req))
        (w.send .claimPreSig)
        (fun answer _ s => (∃ time, w.sent time .claimPreSig = answer) ∧
          s.released = some req.coreHash ∧
          Signing S origin args req.coreHash (maker.record req) s)
        (fun _ => w.GivesUp S origin) :=
      Meets.ask fun time s signing => ⟨signing.consistent, signing.send.consistent, ⟨time, rfl⟩,
        signing.coSigned, signing.send⟩
    refine signed.bind fun _ => saved.bind fun _ => sent.bind fun answer =>
      Meets.assume fun answered => ?_
    obtain ⟨time, answered⟩ := answered
    cases answer with
    | error text =>
      exact (refundAndFail_meets _ _).mono
        (fun _ _ start => ⟨start.2.consistent, .inr ⟨time, text, answered⟩⟩)
        (fun _ _ _ done => done) (fun _ _ done => done)
    | ok done =>
      exact Meets.pure fun _ _ start => ⟨start.2.consistent, req.coreHash, start.1, start.2⟩

theorem driveMaker_meets (rounds : Nat) (swapID : Bytes) (init : Init Scalar Point) :
    let start : Maker Scalar Point :=
      newMaker w.b w.sB swapID init.obxAmount init.xnoAmount w.fee w.sweepDest
    Meets Stopped.step (fun _ => Consistent S start.st) (fun _ s => s = {})
      (w.driveMaker S rounds swapID init) (fun _ _ => Consistent S start.st)
      (fun _ => w.GivesUp S start.st) := by
  intro start
  refine (handshakeStage_meets swapID init).bind fun maker => Meets.assume fun opened => ?_
  refine (fundStage_meets opened).bind fun funded => Meets.exists fun args =>
    Meets.assume fun key => ?_
  refine confirmStage_meets.bind fun locked => ?_
  refine coSignStage_meets.bind fun signed => Meets.exists fun coreHash => ?_
  exact (watchStage_meets rounds signed).mono (fun _ _ start => start.2.consistent)
    (fun _ _ _ done => done) (fun _ _ done => done)

end MakerWorld

/-- Wherever the maker's process stops with OBX at stake, the restart recovers the
swap exactly when a state was written since the funding and, if the maker's half was
sent, since the co-signature. -/
theorem resume_recovers_iff_saved (S : Suite Scalar Point) (w : MakerWorld Scalar Point)
    (rounds : Nat) (swapID : Bytes) (init : Init Scalar Point) (start count : Nat)
    (args : Maker.FundArgs Scalar Point) :
    let stopped := (((w.driveMaker S rounds swapID init).effects start).take count).foldl
      Stopped.step ({} : Stopped Scalar Point)
    stopped.atStake = some args → (Recovers S w args stopped ↔ stopped.Saved) := by
  intro stopped stake
  have kept := (MakerWorld.driveMaker_meets (w := w) (S := S) rounds swapID init start {} rfl).1
    (min count ((w.driveMaker S rounds swapID init).effects start).length) (Nat.min_le_right _ _)
  rw [← List.take_eq_take_min] at kept
  exact (kept args stake).recovers_iff rfl rfl rfl

/-! ## A small swap -/

/-- The taker of the small group's honest run opens, locks and asks for the claim,
and nothing fails. -/
def toyMakerWorld : MakerWorld (ZMod 101) (ZMod 101) where
  codec :=
    { parseInit := fun _ => .error "unused"
      parseMakerCommit := fun _ => .error "unused"
      parseFunded := fun _ => .error "unused"
      parseXNOLocked := fun _ => .ok { swapID := [7], lockID := "lock" }
      readClaimRequest := fun _ => .ok (toyRun 2 two_accepted).request
      parseClaimPreSig := fun _ => .error "unused" }
  fee := 1
  sweepDest := "dest"
  b := 2
  sB := 4
  commitProof := 12
  fundProof := 14
  swapKey := [8]
  saved := fun _ => .ok ()
  sent := fun _ _ => .ok ()
  received := fun time => .ok { kind := if time < 9 then .xnoLocked else .claimRequest, payload := [] }
  height := fun _ => 10
  fundSwapOut := fun _ _ => .ok ()
  nano := fun _ => { confirmed := fun _ => true, lockInfo := fun _ => .ok (9, 7) }
  findSwapSpend := fun _ _ => none
  sweep := fun _ _ _ _ => .ok ()
  mineRefund := fun _ _ _ _ _ => .ok ()
  stopping := fun _ => false

/-- What the small swap leaves behind after this many effects. -/
def toyStopped (count : Nat) : Stopped (ZMod 101) (ZMod 101) :=
  (((toyMakerWorld.driveMaker toySuite 0 [7]
    ((newTaker toySuite 1 3 [7] 5 9 1).opening toySuite 11)).effects 0).take count).foldl
      Stopped.step {}

/-- Stopped after the save that follows the funding, the swap is recovered. -/
theorem toySwap_recovered :
    ∃ args, (toyStopped 6).atStake = some args ∧ Recovers toySuite toyMakerWorld args (toyStopped 6) :=
  ⟨_, rfl, (resume_recovers_iff_saved toySuite toyMakerWorld 0 [7]
    ((newTaker toySuite 1 3 [7] 5 9 1).opening toySuite 11) 0 6 _ rfl).mpr ⟨rfl, fun sent => nomatch sent⟩⟩

/-- Stopped right after the funding, the locked swap is deleted at the restart. -/
theorem funded_swap_deleted :
    (toyStopped 5).atStake.isSome = true ∧
    ∃ st, (toyStopped 5).disk = some st ∧ resumeAction st = .remove ∧ st.swapKey = none :=
  ⟨rfl, _, rfl, rfl, rfl⟩

end Obscura.Swap
