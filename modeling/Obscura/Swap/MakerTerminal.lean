import Obscura.Swap.MakerCrash

/-! # How a maker's session ends

Once the maker's half is out, the taker may claim the OBX at any time the claim
window is open, and only the sweep makes up for it. A session that ends has swept if
a claim was mined, and has asked for the refund only if none was, as long as sending
the half does not fail, the ledger takes the sweep it is asked for, and the last look at
the chain before the window is found closed misses no claim.
-/

namespace Obscura.Swap

open Wire Checked Schnorr Tx Numerals

variable {Scalar Point : Type} [CommRing Scalar] [AddCommGroup Point] [DecidableEq Point]

/-- No claim of the swap output is ever mined. -/
def MakerWorld.Unclaimed (w : MakerWorld Scalar Point) (swapKey : Bytes) : Prop :=
  ∀ time, w.findSwapSpend time swapKey = none

/-- A world in which the watch for a claim of a funding is not interrupted or misled.
Claims are genuine: the chain accepted them, and for a core hash whose half the maker
sent. -/
structure MakerWorld.Fair (w : MakerWorld Scalar Point) (S : Suite Scalar Point)
    (swapKey : Bytes) (funded : Option (Maker.FundArgs Scalar Point)) (released : Option Bytes) :
    Prop where
  serving : ∀ time, w.stopping time = false
  genuine : ∀ time sig, w.findSwapSpend time swapKey = some sig → ∃ args coreHash,
    funded = some args ∧ released = some coreHash ∧ args.ClaimedBy S coreHash sig
  closes : ∀ args, funded = some args → ∀ time, w.findSwapSpend time swapKey = none →
    args.unlockHeight ≤ w.height (time + 1) → w.Unclaimed swapKey

/-- A claim was answered by a sweep with the joint account's key, and a refund was only
asked for when there was no claim. -/
structure Stopped.Settled (s : Stopped Scalar Point) (S : Suite Scalar Point)
    (w : MakerWorld Scalar Point) (swapKey : Bytes) (sB : Scalar)
    (funded : Option (Maker.FundArgs Scalar Point)) : Prop where
  swept : ¬ w.Unclaimed swapKey → ∃ args lockID secret, funded = some args ∧
    s.swept = some (lockID, secret) ∧ S.base secret = args.claimT + S.base sB
  refund : s.refundAsked = true → w.Unclaimed swapKey

omit [CommRing Scalar] [AddCommGroup Point] [DecidableEq Point] in
/-- On a chain that keeps its claims, mines them only the reorg margin below the
unlock height and grows by at most the margin between two effects, the last look
misses no claim. -/
theorem MakerWorld.unclaimed_of_steady {w : MakerWorld Scalar Point} {swapKey : Bytes}
    {unlock : UInt64}
    (kept : ∀ time sig, w.findSwapSpend time swapKey = some sig →
      ∀ later, time ≤ later → (w.findSwapSpend later swapKey).isSome)
    (window : ∀ time, w.findSwapSpend time swapKey = none →
      unlock.toNat ≤ (w.height time).toNat + Config.swapReorgMargin →
      ∀ later, time ≤ later → w.findSwapSpend later swapKey = none)
    (steady : ∀ time, (w.height (time + 1)).toNat ≤
      (w.height time).toNat + Config.swapReorgMargin)
    (time : Nat) (missing : w.findSwapSpend time swapKey = none)
    (closed : unlock ≤ w.height (time + 1)) : w.Unclaimed swapKey := by
  have reached : unlock.toNat ≤ (w.height time).toNat + Config.swapReorgMargin :=
    (UInt64.le_iff_toNat_le.mp closed).trans (steady time)
  intro other
  rcases Nat.le_total time other with later | earlier
  · exact window time missing reached other later
  · cases found : w.findSwapSpend other swapKey with
    | none => rfl
    | some sig =>
      have still := kept other sig found time earlier
      rw [missing] at still
      cases still

omit [CommRing Scalar] [AddCommGroup Point] [DecidableEq Point] in
theorem Stopped.sweepRefused_stays (s : Stopped Scalar Point) (effect : MakerEffect Scalar Point)
    (refused : s.sweepRefused = true) : (s.step effect).sweepRefused = true := by
  unfold Stopped.step
  split <;> first | exact refused | rfl

namespace MakerWorld

open Driver Stopped

variable {w : MakerWorld Scalar Point} {S : Suite Scalar Point}

/-- A maker whose watch answers a claim of this funding. -/
structure Ready (S : Suite Scalar Point) (args : Maker.FundArgs Scalar Point)
    (released : Option Bytes) (sB : Scalar) (maker : Maker Scalar Point) : Prop where
  swapKey : maker.st.swapKey = some args.swapKey
  unlockHeight : maker.st.unlockHeight = args.unlockHeight
  answers : ∀ coreHash sig, released = some coreHash → args.ClaimedBy S coreHash sig →
    ∃ secret, maker.sweepCall S sig = some secret ∧ S.base secret = args.claimT + S.base sB

/-- What the watch does not touch. -/
structure Watching (funded : Option (Maker.FundArgs Scalar Point)) (released : Option Bytes)
    (s : Stopped Scalar Point) : Prop where
  funded : s.funded = funded
  released : s.released = released
  refundAsked : s.refundAsked = false

/-- One look at the chain in a fair world sweeps, or there is no claim to be seen, unless the
ledger refuses the sweep. -/
theorem sweepFromChain_settles {args : Maker.FundArgs Scalar Point} {released : Option Bytes}
    {sB : Scalar} {maker : Maker Scalar Point} {funded : Option (Maker.FundArgs Scalar Point)}
    {sent : Option Bytes} {fair : Prop} {failed : Assertion (Stopped Scalar Point)}
    (conditions : fair → w.Fair S args.swapKey (some args) released)
    (ready : fair → Ready S args released sB maker) :
    Meets Stopped.step (fun _ _ => True) (fun _ => Watching funded sent)
      (w.sweepFromChain S maker)
      (fun outcome time s => s.sweepRefused = true ∨ Watching funded sent s ∧
        (fair → outcome.1 = true → ∃ lockID secret, s.swept = some (lockID, secret) ∧
          S.base secret = args.claimT + S.base sB) ∧
        (fair → outcome.1 = false → outcome.2 = maker ∧
          ∃ look, time = look + 1 ∧ w.findSwapSpend look args.swapKey = none))
      failed := by
  have looked : Meets Stopped.step (fun _ _ => True) (fun _ => Watching funded sent)
      (ask (fun _ => (.scrape : MakerEffect Scalar Point))
        (fun time => maker.st.swapKey.bind (w.findSwapSpend time)))
      (fun found time s => (∃ look, time = look + 1 ∧
        maker.st.swapKey.bind (w.findSwapSpend look) = found) ∧ Watching funded sent s) failed :=
    Meets.ask fun time s start => ⟨trivial, trivial, ⟨time, rfl, rfl⟩, start⟩
  refine looked.bind fun found => ?_
  cases found with
  | none =>
    refine Meets.pure fun time s start =>
      ⟨trivial, Or.inr ⟨start.2, nofun, fun holds _ => ⟨rfl, ?_⟩⟩⟩
    obtain ⟨look, now, missing⟩ := start.1
    rw [(ready holds).swapKey] at missing
    exact ⟨look, now, missing⟩
  | some sig =>
    have seen : fair → ∀ look, maker.st.swapKey.bind (w.findSwapSpend look) = some sig →
        ∃ secret, maker.sweepCall S sig = some secret ∧
          S.base secret = args.claimT + S.base sB := by
      intro holds look found
      rw [(ready holds).swapKey] at found
      obtain ⟨args', coreHash, same, sent, claimed⟩ := (conditions holds).genuine look sig found
      obtain rfl := Option.some.inj same
      exact (ready holds).answers coreHash sig sent claimed
    dsimp only
    cases call : maker.sweepCall S sig with
    | none =>
      refine Meets.pure fun time s start =>
        ⟨trivial, Or.inr ⟨start.2, nofun, fun holds _ => ?_⟩⟩
      obtain ⟨look, -, found⟩ := start.1
      obtain ⟨secret, called, -⟩ := seen holds look found
      rw [call] at called
      cases called
    | some secret =>
      have asked : Meets Stopped.step (fun _ _ => True)
          (fun time s => (∃ look, time = look + 1 ∧
            maker.st.swapKey.bind (w.findSwapSpend look) = some sig) ∧ Watching funded sent s)
          (ask
            (fun time => (.sweep maker.st.xnoLockID secret
              (w.sweep time maker.st.xnoLockID secret maker.st.sweepDest).isOk :
              MakerEffect Scalar Point))
            (fun time => w.sweep time))
          (fun answer _ s => s.sweepRefused = true ∨ Watching funded sent s ∧
            (fair → (∃ lockID secret, s.swept = some (lockID, secret) ∧
              S.base secret = args.claimT + S.base sB) ∧
              answer maker.st.xnoLockID secret maker.st.sweepDest = .ok ()))
          failed := by
        refine Meets.ask fun time s start => ⟨trivial, trivial, ?_⟩
        obtain ⟨⟨look, -, found⟩, frame⟩ := start
        cases answered : w.sweep time maker.st.xnoLockID secret maker.st.sweepDest with
        | error text => exact Or.inl rfl
        | ok done =>
          refine Or.inr
            ⟨⟨frame.funded, frame.released, frame.refundAsked⟩, fun holds => ⟨?_, rfl⟩⟩
          obtain ⟨secret', called, account⟩ := seen holds look found
          obtain rfl : secret = secret' := Option.some.inj (call.symm.trans called)
          exact ⟨maker.st.xnoLockID, secret, rfl, account⟩
      refine asked.bind fun answer => Meets.pure fun _ s start =>
        ⟨trivial, start.imp_right fun start => ⟨start.1, ?_, ?_⟩⟩
      · intro holds _
        exact (start.2 holds).1
      · intro holds unswept
        have swept := (Maker.sweepXNOIndependent_ok_iff call answer).mpr (start.2 holds).2
        simp [swept, Except.isOk, Except.toBool] at unswept

/-- The watch of a fair world ends in a sweep or without a claim, unless the ledger refuses the
sweep. -/
theorem makerSweep_settles {args : Maker.FundArgs Scalar Point} {released : Option Bytes}
    {sB : Scalar} {maker : Maker Scalar Point} {funded : Option (Maker.FundArgs Scalar Point)}
    {sent : Option Bytes} {fair : Prop} {failed : Assertion (Stopped Scalar Point)}
    (conditions : fair → w.Fair S args.swapKey (some args) released)
    (ready : fair → Ready S args released sB maker) (rounds : Nat) :
    Meets Stopped.step (fun _ _ => True) (fun _ => Watching funded sent)
      (w.makerSweep S rounds maker)
      (fun outcome _ s => s.sweepRefused = true ∨ Watching funded sent s ∧
        (fair → outcome.1 = .swept → ∃ lockID secret, s.swept = some (lockID, secret) ∧
          S.base secret = args.claimT + S.base sB) ∧
        (fair → outcome.1 = .windowClosed → w.Unclaimed args.swapKey) ∧
        (fair → outcome.1 ≠ .stopping))
      (fun time s => s.sweepRefused = true ∨ failed time s) := by
  induction rounds generalizing maker with
  | zero =>
    exact Meets.pure fun _ s start => ⟨trivial, Or.inr ⟨start, nofun, nofun, fun _ => nofun⟩⟩
  | succ rounds ih =>
    refine Meets.bind_unless sweepRefused_stays (sweepFromChain_settles conditions ready)
      fun outcome => ?_
    obtain ⟨swept, next⟩ := outcome
    cases swept with
    | true =>
      exact Meets.pure fun _ s start => ⟨trivial, Or.inr
        ⟨start.1, fun holds _ => start.2.1 holds rfl, nofun, fun _ => nofun⟩⟩
    | false =>
      have read : Meets Stopped.step (fun _ _ => True)
          (fun time s => Watching funded sent s ∧
            (fair → false = true → ∃ lockID secret, s.swept = some (lockID, secret) ∧
              S.base secret = args.claimT + S.base sB) ∧
            (fair → false = false → next = maker ∧
              ∃ look, time = look + 1 ∧ w.findSwapSpend look args.swapKey = none))
          (ask (fun _ => (.readHeight : MakerEffect Scalar Point)) w.height)
          (fun height _ s => (fair → next = maker ∧
            ∃ look, height = w.height (look + 1) ∧
              w.findSwapSpend look args.swapKey = none) ∧ Watching funded sent s)
          (fun time s => s.sweepRefused = true ∨ failed time s) := by
        refine Meets.ask fun time s start => ⟨trivial, trivial, fun holds => ?_, start.1⟩
        obtain ⟨same, look, rfl, missing⟩ := start.2.2 holds rfl
        exact ⟨same, look, rfl, missing⟩
      refine read.bind fun height => Meets.assume fun missed => ?_
      split_ifs with closed
      · refine Meets.pure fun _ s start =>
          ⟨trivial, Or.inr ⟨start, nofun, fun holds _ => ?_, fun _ => nofun⟩⟩
        obtain ⟨same, look, rfl, missing⟩ := missed holds
        rw [same, (ready holds).unlockHeight] at closed
        exact (conditions holds).closes args rfl look missing closed
      · have waited : Meets Stopped.step (fun _ _ => True) (fun _ => Watching funded sent)
            (ask (fun _ => (.wait : MakerEffect Scalar Point)) w.stopping)
            (fun stop _ s => (∃ time, w.stopping time = stop) ∧ Watching funded sent s)
            (fun time s => s.sweepRefused = true ∨ failed time s) :=
          Meets.ask fun time s start => ⟨trivial, trivial, ⟨time, rfl⟩, start⟩
        refine waited.bind fun stop => Meets.assume fun stopped => ?_
        obtain ⟨time, stopped⟩ := stopped
        cases stop with
        | true =>
          refine Meets.pure fun _ s start =>
            ⟨trivial, Or.inr ⟨start, nofun, nofun, fun holds => ?_⟩⟩
          rw [(conditions holds).serving] at stopped
          cases stopped
        | false =>
          refine ih fun holds => ?_
          rw [(missed holds).1]
          exact ready holds

omit [CommRing Scalar] [AddCommGroup Point] [DecidableEq Point] in
theorem makerRefund_keeps (maker : Maker Scalar Point)
    {funded : Option (Maker.FundArgs Scalar Point)} {sent : Option Bytes}
    {failed : Assertion (Stopped Scalar Point)} :
    Meets Stopped.step (fun _ _ => True)
      (fun _ s => s.funded = funded ∧ s.released = sent) (w.makerRefund maker)
      (fun _ _ s => s.funded = funded ∧ s.released = sent) failed := by
  rw [makerRefund]
  cases maker.refundCall with
  | none => exact Meets.pure fun _ _ start => ⟨trivial, start⟩
  | some swapKey =>
    have asked : Meets Stopped.step (fun _ _ => True)
        (fun _ s => s.funded = funded ∧ s.released = sent)
        (ask
          (fun time => (.mineRefund swapKey (w.mineRefund time swapKey maker.st.obxAmount
            maker.st.fee maker.st.unlockHeight).isOk : MakerEffect Scalar Point))
          (fun time => w.mineRefund time))
        (fun _ _ s => s.funded = funded ∧ s.released = sent) failed := by
      refine Meets.ask fun time s start => ⟨trivial, trivial, ?_⟩
      cases (w.mineRefund time swapKey maker.st.obxAmount maker.st.fee
        maker.st.unlockHeight).isOk with
      | false => exact start
      | true => exact start
    refine asked.bind fun answer => ?_
    split
    · exact Meets.pure fun _ _ start => ⟨trivial, start⟩
    · exact save_meets (fun _ _ => trivial) (fun _ start => start)

/-- The watch settles the swap where the ledgers are fair. -/
theorem watchStage_settles {args : Maker.FundArgs Scalar Point} {released : Option Bytes}
    {sB : Scalar} {maker : Maker Scalar Point} {funded : Option (Maker.FundArgs Scalar Point)}
    {sent : Option Bytes} {fair : Prop} {failed : Assertion (Stopped Scalar Point)}
    (conditions : fair → w.Fair S args.swapKey (some args) released)
    (ready : fair → Ready S args released sB maker) (rounds : Nat) :
    Meets Stopped.step (fun _ _ => True) (fun _ => Watching funded sent)
      (w.watchStage S rounds maker)
      (fun ended _ s => s.sweepRefused = true ∨ s.funded = funded ∧ s.released = sent ∧
        (fair → ended ≠ .watching → s.Settled S w args.swapKey sB (some args)))
      (fun time s => s.sweepRefused = true ∨ failed time s) := by
  refine Meets.bind_unless sweepRefused_stays (makerSweep_settles conditions ready rounds)
    fun outcome => ?_
  obtain ⟨ended, next⟩ := outcome
  cases ended with
  | swept =>
    have saved : Meets Stopped.step (fun _ _ => True)
        (fun _ s => Watching funded sent s ∧ (fair → ∃ lockID secret,
          s.swept = some (lockID, secret) ∧ S.base secret = args.claimT + S.base sB))
        (w.save next.st)
        (fun _ _ s => Watching funded sent s ∧ (fair → ∃ lockID secret,
          s.swept = some (lockID, secret) ∧ S.base secret = args.claimT + S.base sB))
        (fun time s => s.sweepRefused = true ∨ failed time s) :=
      save_meets (fun _ _ => trivial) fun _ start =>
        ⟨⟨start.1.funded, start.1.released, start.1.refundAsked⟩, start.2⟩
    refine (saved.mono (fun _ _ start => ⟨start.1, fun holds => start.2.1 holds rfl⟩)
      (fun _ _ _ done => done) (fun _ _ done => done)).bind fun _ => ?_
    refine Meets.pure fun _ s start => ⟨trivial, Or.inr ⟨start.1.funded, start.1.released,
      fun holds _ => ⟨fun _ => ?_, fun asked => ?_⟩⟩⟩
    · obtain ⟨lockID, secret, swept, account⟩ := start.2 holds
      exact ⟨args, lockID, secret, rfl, swept, account⟩
    · rw [start.1.refundAsked] at asked
      cases asked
  | windowClosed =>
    intro time s start
    have unclaimed : fair → w.Unclaimed args.swapKey := fun holds => start.2.2.1 holds rfl
    have refunded : Meets Stopped.step (fun _ _ => True)
        (fun _ s => s.funded = funded ∧ s.released = sent)
        (do w.makerRefund next; pure .windowClosed :
          Driver (MakerEffect Scalar Point) WatchEnd)
        (fun ended _ s => s.sweepRefused = true ∨ s.funded = funded ∧ s.released = sent ∧
          (fair → ended ≠ .watching → s.Settled S w args.swapKey sB (some args)))
        (fun time s => s.sweepRefused = true ∨ failed time s) := by
      refine (makerRefund_keeps next).bind fun _ => Meets.pure fun _ s start => ⟨trivial,
        Or.inr ⟨start.1, start.2, fun holds _ =>
          ⟨fun claimed => absurd (unclaimed holds) claimed, fun _ => unclaimed holds⟩⟩⟩
    exact refunded time s ⟨start.1.funded, start.1.released⟩
  | stopping =>
    exact Meets.pure fun _ s start => ⟨trivial, Or.inr ⟨start.1.funded, start.1.released,
      fun holds => absurd rfl (start.2.2.2 holds)⟩⟩
  | watching =>
    exact Meets.pure fun _ s start => ⟨trivial, Or.inr ⟨start.1.funded, start.1.released,
      fun _ running => absurd rfl running⟩⟩

theorem Ready.of_backup {origin : SwapState Scalar Point} {args : Maker.FundArgs Scalar Point}
    {released : Option Bytes} {maker : Maker Scalar Point} (coherent : maker.Coherent S origin)
    (backup : maker.st.Backup S origin args)
    (records : ∀ coreHash, released = some coreHash → maker.st.Records S coreHash) :
    Ready S args released origin.ownShareXNO maker where
  swapKey := backup.swapKey
  unlockHeight := backup.unlockHeight
  answers := by
    intro coreHash sig sent claimed
    obtain ⟨agreed, secret, -, account, joint, call⟩ :=
      SwapState.Backup.sweepCall coherent backup (records coreHash sent) claimed
    exact ⟨secret, call, account.trans joint⟩

/-- What a session that ends with its half sent has done, in a fair world whose
ledger refused no sweep. -/
theorem driveMaker_settles (rounds : Nat) (swapID : Bytes) (init : Init Scalar Point) :
    let start : Maker Scalar Point :=
      newMaker w.b w.sB swapID init.obxAmount init.xnoAmount w.fee w.sweepDest
    Meets Stopped.step (fun _ _ => True) (fun _ s => s = {}) (w.driveMaker S rounds swapID init)
      (fun ended _ s => s.sweepRefused = true ∨
        ∃ args, s.funded = some args ∧ args.swapKey = w.swapKey ∧
          (w.Fair S args.swapKey (some args) s.released → ended ≠ .watching →
            s.Settled S w args.swapKey w.sB (some args)))
      (fun _ s => s.sweepRefused = true ∨ w.GivesUp S start.st s) := by
  intro start
  have relaxed {α : Type} {pre failed : Assertion (Stopped Scalar Point)}
      {driver : Driver (MakerEffect Scalar Point) α} {post : α → Assertion (Stopped Scalar Point)}
      (meets : Meets Stopped.step (fun _ => Consistent S start.st) pre driver post failed) :
      Meets Stopped.step (fun _ _ => True) pre driver post
        (fun time s => s.sweepRefused = true ∨ failed time s) :=
    Meets.mono (fun time s begins => ⟨fun _ _ => trivial, (meets time s begins).2⟩)
      (fun _ _ begins => begins) (fun _ _ _ done => done) (fun _ _ => Or.inr)
  refine (relaxed (handshakeStage_meets swapID init)).bind fun maker =>
    Meets.assume fun opened => ?_
  refine (relaxed (fundStage_meets opened)).bind fun funded => Meets.exists fun args =>
    Meets.assume fun key => ?_
  refine (relaxed confirmStage_meets).bind fun locked => ?_
  refine (relaxed coSignStage_meets).bind fun signed => Meets.exists fun coreHash => ?_
  intro time s begins
  obtain ⟨sent, signing⟩ := begins
  have ready : Ready S args (some coreHash) w.sB signed := by
    refine Ready.of_backup signing.coherent signing.backup fun coreHash' same => ?_
    obtain rfl := Option.some.inj same
    exact signing.records
  have watched : Meets Stopped.step (fun _ _ => True) (fun _ => Watching (some args) (some coreHash))
      (w.watchStage S rounds signed)
      (fun ended _ s => s.sweepRefused = true ∨ s.funded = some args ∧ s.released = some coreHash ∧
        (w.Fair S args.swapKey (some args) (some coreHash) → ended ≠ .watching →
          s.Settled S w args.swapKey w.sB (some args)))
      (fun _ s => s.sweepRefused = true ∨ w.GivesUp S start.st s) :=
    watchStage_settles (fun fair => fair) (fun _ => ready) rounds
  have settles : Meets Stopped.step (fun _ _ => True)
      (fun _ => Watching (some args) (some coreHash)) (w.watchStage S rounds signed)
      (fun ended _ s => s.sweepRefused = true ∨
        ∃ args, s.funded = some args ∧ args.swapKey = w.swapKey ∧
          (w.Fair S args.swapKey (some args) s.released → ended ≠ .watching →
            s.Settled S w args.swapKey w.sB (some args)))
      (fun _ s => s.sweepRefused = true ∨ w.GivesUp S start.st s) := by
    refine watched.mono (fun _ _ start => start) (fun ended _ s done => done.imp_right fun done => ?_)
      (fun _ _ done => done)
    obtain ⟨funded, released, settled⟩ := done
    refine ⟨args, funded, key, fun fair => settled ?_⟩
    rwa [released] at fair
  exact settles time s ⟨signing.funded, sent, signing.refundAsked⟩

end MakerWorld

/-- A driver that ends settles the swap. It does so in every world where the watch is
fair, the ledger refuses no sweep that the driver asks for, and sending the half does not
fail while a claim is mined; and so does the recovery of a state that was saved, after a
stop at any point. -/
theorem maker_settles (S : Suite Scalar Point) (w : MakerWorld Scalar Point) (rounds : Nat)
    (swapID : Bytes) (init : Init Scalar Point) (start : Nat) :
    (let driver := w.driveMaker S rounds swapID init
     let final := (driver.effects start).foldl Stopped.step ({} : Stopped Scalar Point)
     w.Fair S w.swapKey final.funded final.released →
     final.sweepRefused = false →
     ((∃ time text, w.sent time .claimPreSig = .error text) → w.Unclaimed w.swapKey) →
     driver.result start ≠ .ok .watching →
     final.Settled S w w.swapKey w.sB final.funded) ∧
    ∀ (count : Nat) (args : Maker.FundArgs Scalar Point) (st : SwapState Scalar Point)
      (later : MakerWorld Scalar Point) (laterRounds laterStart : Nat),
      let stopped := (((w.driveMaker S rounds swapID init).effects start).take count).foldl
        Stopped.step ({} : Stopped Scalar Point)
      let driver := later.resumeMakerRecovery S laterRounds st
      let final := (driver.effects laterStart).foldl Stopped.step ({} : Stopped Scalar Point)
      stopped.atStake = some args → stopped.Saved → stopped.disk = some st →
      later.Fair S args.swapKey (some args) stopped.released →
      final.sweepRefused = false →
      driver.result laterStart ≠ .ok .watching →
      final.Settled S later args.swapKey w.sB (some args) := by
  refine ⟨?_, ?_⟩
  · intro driver final fair accepted delivered ended
    have done := (MakerWorld.driveMaker_settles (w := w) (S := S) rounds swapID init start {}
      rfl).2
    have unrefused : ¬ final.sweepRefused = true := Bool.eq_false_iff.mp accepted
    cases outcome : driver.result start with
    | error text =>
      rw [show (w.driveMaker S rounds swapID init).result start = .error text from outcome] at done
      have gaveUp : final.released = none ∨
          ∃ time text, w.sent time .claimPreSig = .error text :=
        (done.resolve_left unrefused).2
      -- the half was not sent, or sending it failed
      have unclaimed : w.Unclaimed w.swapKey := by
        rcases gaveUp with unsent | failed
        · intro time
          cases found : w.findSwapSpend time w.swapKey with
          | none => rfl
          | some sig =>
            obtain ⟨args, coreHash, -, sent, -⟩ := fair.genuine time sig found
            rw [unsent] at sent
            cases sent
        · exact delivered failed
      exact ⟨fun claimed => absurd unclaimed claimed, fun _ => unclaimed⟩
    | ok last =>
      obtain ⟨args, funded, key, settled⟩ : ∃ args, final.funded = some args ∧
          args.swapKey = w.swapKey ∧ (w.Fair S args.swapKey (some args) final.released →
            last ≠ .watching → final.Settled S w args.swapKey w.sB (some args)) := by
        rw [show (w.driveMaker S rounds swapID init).result start = .ok last from outcome] at done
        exact done.resolve_left unrefused
      rw [funded] at fair ⊢
      rw [← key] at fair ⊢
      exact settled fair fun running => ended (by rw [outcome, running])
  · intro count args st later laterRounds laterStart stopped driver final stake saved disk fair
      accepted ended
    have kept := (MakerWorld.driveMaker_meets (w := w) (S := S) rounds swapID init start {} rfl).1
      (min count ((w.driveMaker S rounds swapID init).effects start).length) (Nat.min_le_right _ _)
    rw [← List.take_eq_take_min] at kept
    have covers := kept args stake
    obtain ⟨st', disk', backup, -, recorded⟩ := covers.saved saved.1
    obtain rfl : st' = st := Option.some.inj (disk'.symm.trans disk)
    have same := backup.state.same
    simp only [SwapState.identity, Prod.mk.injEq] at same
    obtain ⟨maker, resumed⟩ : ∃ maker, resumeMaker S st' = .ok maker :=
      ⟨_, if_neg (not_not.mpr same.2.1)⟩
    obtain ⟨coherent, state⟩ := Maker.Coherent.resume backup.state resumed
    have ready : MakerWorld.Ready S args stopped.released w.sB maker := by
      refine .of_backup coherent (by rw [state]; exact backup) fun coreHash sent => ?_
      obtain ⟨coreHash', coSigned, record⟩ := recorded (saved.2 (by rw [sent]; rfl))
      obtain rfl : coreHash' = coreHash :=
        Option.some.inj (coSigned.symm.trans (covers.sent coreHash sent))
      rw [state]
      exact record
    have watched : Driver.Meets Stopped.step (fun _ _ => True)
        (fun _ => MakerWorld.Watching none none) (later.watchStage S laterRounds maker)
        (fun ended _ s => s.sweepRefused = true ∨ s.funded = none ∧ s.released = none ∧
          (True → ended ≠ .watching → s.Settled S later args.swapKey w.sB (some args)))
        (fun _ s => s.sweepRefused = true ∨ False) :=
      MakerWorld.watchStage_settles (fun _ => fair) (fun _ => ready) laterRounds
    have resumes : Driver.Meets Stopped.step (fun _ _ => True)
        (fun _ => MakerWorld.Watching none none) driver
        (fun ended _ s => s.sweepRefused = true ∨
          (ended ≠ .watching → s.Settled S later args.swapKey w.sB (some args)))
        (fun _ s => s.sweepRefused = true ∨ False) := by
      simp only [driver, MakerWorld.resumeMakerRecovery, resumed]
      refine Driver.Meets.bind_unless Stopped.sweepRefused_stays watched fun last => ?_
      cases last with
      | swept =>
        have removed : Driver.Meets Stopped.step (fun _ _ => True)
            (fun _ s => s.Settled S later args.swapKey w.sB (some args))
            (Driver.perform (.remove : MakerEffect Scalar Point))
            (fun _ _ s => s.Settled S later args.swapKey w.sB (some args))
            (fun _ s => s.sweepRefused = true ∨ False) :=
          Driver.Meets.perform fun _ s settled => ⟨trivial, trivial, settled.swept, settled.refund⟩
        refine (removed.mono (fun _ _ start => start.2.2 trivial (by rintro ⟨⟩))
          (fun _ _ _ done => done)
          (fun _ _ done => done)).bind fun _ => ?_
        exact Driver.Meets.pure fun _ _ settled => ⟨trivial, Or.inr fun _ => settled⟩
      | windowClosed | stopping | watching =>
        exact Driver.Meets.pure fun _ _ start => ⟨trivial, Or.inr (start.2.2 trivial)⟩
    have done := (resumes laterStart {} ⟨rfl, rfl, rfl⟩).2
    have unrefused : ¬ final.sweepRefused = true := Bool.eq_false_iff.mp accepted
    cases outcome : driver.result laterStart with
    | error text =>
      rw [outcome] at done
      exact (done.resolve_left unrefused).elim
    | ok last =>
      rw [outcome] at done
      exact done.resolve_left unrefused fun running => ended (by rw [outcome, running])

/-! ## A small swap that is claimed -/

/-- The claim of the small swap. -/
def toyClaim : FullSig (ZMod 101) (ZMod 101) := adapt (toyRun 2 two_accepted).presignature 3 3

/-- The taker mines its claim as soon as the half is sent. -/
def toyClaimedWorld : MakerWorld (ZMod 101) (ZMod 101) :=
  { toyMakerWorld with
    findSwapSpend := fun time swapKey => if 14 ≤ time ∧ swapKey = [8] then some toyClaim else none }

/-- The taker receives the half although sending it reports an error. -/
def toyLostWorld : MakerWorld (ZMod 101) (ZMod 101) :=
  { toyClaimedWorld with
    sent := fun _ kind => if kind = .claimPreSig then .error "timeout" else .ok ()
    mineRefund := fun _ _ _ _ _ => .error "swap output spent" }

/-- The taker's opening message in the small swap. -/
def toyInit : Init (ZMod 101) (ZMod 101) := (newTaker toySuite 1 3 [7] 5 9 1).opening toySuite 11

/-- The session of a world, and what it leaves behind. -/
def toySession (w : MakerWorld (ZMod 101) (ZMod 101)) : Stopped (ZMod 101) (ZMod 101) :=
  ((w.driveMaker toySuite 1 [7] toyInit).effects 0).foldl Stopped.step {}

/-- The funding of the small swap. -/
def toyFunding : Maker.FundArgs (ZMod 101) (ZMod 101) :=
  (newMaker 2 4 [7] 5 9 1 "dest" : Maker (ZMod 101) (ZMod 101)).fundArgs toySuite 14 [8] 622 toyInit
    { peerClaimShare := 1, peerXNOShare := 3, peerNonceR := (toyRun 2 two_accepted).ra
      claimKey := (toyRun 2 two_accepted).K, aggNonceR := (toyRun 2 two_accepted).R
      xnoAccountPub := 7 } 3

theorem toyFunding_claimed : toyFunding.ClaimedBy toySuite [9] toyClaim := by
  constructor
  · decide
  · decide

/-- The sample world is fair. -/
theorem toyClaimedWorld_fair :
    toyClaimedWorld.Fair toySuite [8] (some toyFunding) (some [9]) where
  serving := fun _ => rfl
  genuine := by
    intro time sig found
    obtain rfl : toyClaim = sig := by
      simp only [toyClaimedWorld] at found
      split_ifs at found
      exact Option.some.inj found
    exact ⟨toyFunding, [9], rfl, rfl, toyFunding_claimed⟩
  closes := by
    intro args same time _ closed
    obtain rfl := Option.some.inj same
    have open_ : ¬ (622 : UInt64) ≤ 10 := by decide
    exact absurd closed open_

/-- The claimed swap is swept, in the session and after a restart that follows the
sending of the half. -/
theorem toyClaimedWorld_settled :
    (toySession toyClaimedWorld).Settled toySuite toyClaimedWorld [8] 4 (some toyFunding) ∧
    ∃ st, (toyStopped 14).disk = some st ∧
      Stopped.Settled (((toyClaimedWorld.resumeMakerRecovery toySuite 1 st).effects 14).foldl
        Stopped.step {}) toySuite toyClaimedWorld [8] 4 (some toyFunding) := by
  refine ⟨?_, _, rfl, ?_⟩
  · refine (maker_settles toySuite toyClaimedWorld 1 [7] toyInit 0).1 toyClaimedWorld_fair rfl ?_
      (by rintro ⟨⟩)
    rintro ⟨time, text, failed⟩
    cases failed
  · exact (maker_settles toySuite toyMakerWorld 0 [7] toyInit 0).2 14 toyFunding _ toyClaimedWorld 1 14
      rfl ⟨rfl, fun _ => rfl⟩ rfl toyClaimedWorld_fair rfl (by rintro ⟨⟩)

/-- A claim goes unanswered when sending the half reports an error: the session ends,
the output is claimed, and nothing is swept. -/
theorem claimed_swap_unswept :
    (toyLostWorld.driveMaker toySuite 1 [7] toyInit).result 0 = .error "send ClaimPreSig: timeout" ∧
    (toySession toyLostWorld).released = some [9] ∧
    toyLostWorld.findSwapSpend 15 [8] = some toyClaim ∧
    toyFunding.ClaimedBy toySuite [9] toyClaim ∧
    (toySession toyLostWorld).swept = none :=
  ⟨rfl, rfl, rfl, toyFunding_claimed, rfl⟩

end Obscura.Swap
