import Obscura.Swap.MakerTerminal

/-! # A sweep the ledger refuses

The phase of a maker advances to claimed before the ledger answers the sweep, and stays
there when the ledger reports an error. Both the sweep and the refund are refused in that
phase, so no later call of the session, no state saved from it and no later round of its
drivers sweeps the lock, although the ledger may answer again.
-/

namespace Obscura.Swap

open Wire Checked Schnorr Tx Numerals

variable {Scalar Point : Type} [CommRing Scalar] [AddCommGroup Point] [DecidableEq Point]

namespace Maker

/-- Some signature sweeps on every ledger that takes the sweep. -/
def Retryable (S : Suite Scalar Point) (m : Maker Scalar Point) : Prop :=
  ∃ sig, ∀ sweep : Sweep Scalar, (∀ lockID secret dest, sweep lockID secret dest = .ok ()) →
    (m.sweepXNOIndependent S sweep sig).1 = .ok ()

/-- The guards of the session admit neither a sweep nor a refund. -/
structure Spent (S : Suite Scalar Point) (m : Maker Scalar Point) : Prop where
  sweeps : ∀ (sweep : Sweep Scalar) (sig : FullSig Scalar Point),
    m.sweepXNOIndependent S sweep sig =
      (.error (.failed s!"swapsession: SweepXNOIndependent in phase {m.st.phase.text}"), m)
  calls : ∀ sig, m.sweepCall S sig = none
  refund : m.refundCall = none

variable {S : Suite Scalar Point} {m : Maker Scalar Point}

/-- A claimed swap is spent. -/
theorem Spent.of_claimed (claimed : m.st.phase = .claimed) : m.Spent S where
  sweeps := by
    intro sweep sig
    have outside : m.st.phase ≠ .xnoLock := by
      rw [claimed]
      exact nofun
    rw [sweepXNOIndependent, if_pos outside]
  calls := by
    intro sig
    have outside : m.st.phase ≠ .xnoLock := by
      rw [claimed]
      exact nofun
    rw [sweepCall, if_pos outside]
  refund := by
    rw [refundCall, if_pos (Or.inl claimed)]

theorem Spent.not_retryable (spent : m.Spent S) : ¬ m.Retryable S := by
  intro retryable
  obtain ⟨sig, succeeds⟩ := retryable
  have answer := succeeds (fun _ _ _ => .ok ()) fun _ _ _ => rfl
  rw [spent.sweeps] at answer
  cases answer

theorem sweepXNOIndependent_refused {sig : FullSig Scalar Point} {secret : Scalar}
    {sweep : Sweep Scalar} {text : String} (call : m.sweepCall S sig = some secret)
    (refused : sweep m.st.xnoLockID secret m.st.sweepDest = .error text) :
    m.sweepXNOIndependent S sweep sig =
      (.error (.failed s!"swapsession: XNO sweep: {text}"), m.inPhase .claimed) := by
  rw [sweepCall] at call
  split_ifs at call with phase
  split at call
  · cases call
  rename_i recovered found
  split_ifs at call with passes
  obtain rfl := Option.some.inj call
  obtain ⟨share, account⟩ := passes
  simp only [sweepXNOIndependent, if_neg phase, found, finishSweep, share, account, ne_eq,
    not_true_eq_false, if_false, refused]
  rfl

end Maker

/-! ## The drivers -/

namespace MakerWorld

open Driver

/-- Effects that only look at the world. -/
def Idles (effects : List (MakerEffect Scalar Point)) : Prop :=
  ∀ effect ∈ effects, effect = .scrape ∨ effect = .readHeight ∨ effect = .wait

variable {w : MakerWorld Scalar Point} {S : Suite Scalar Point} {maker : Maker Scalar Point}

section Idle

omit [CommRing Scalar] [AddCommGroup Point] [DecidableEq Point]

theorem Idles.nil : Idles ([] : List (MakerEffect Scalar Point)) := fun _ member => nomatch member

theorem Idles.closed : Idles ([.scrape, .readHeight] : List (MakerEffect Scalar Point)) := by
  intro effect member
  rcases List.mem_cons.mp member with first | rest
  · exact Or.inl first
  · exact Or.inr (Or.inl (List.mem_singleton.mp rest))

/-- A round without an outcome. -/
theorem Idles.round {effects : List (MakerEffect Scalar Point)} (rest : Idles effects) :
    Idles (.scrape :: .readHeight :: .wait :: effects) := by
  intro effect member
  rcases List.mem_cons.mp member with first | member
  · exact Or.inl first
  · rcases List.mem_cons.mp member with second | member
    · exact Or.inr (Or.inl second)
    · rcases List.mem_cons.mp member with third | later
      · exact Or.inr (Or.inr third)
      · exact rest effect later

end Idle

theorem sweepFromChain_spent (spent : maker.Spent S) (time : Nat) :
    (w.sweepFromChain S maker).run time = ([.scrape], .ok (false, maker)) := by
  cases found : maker.st.swapKey.bind (w.findSwapSpend time) with
  | none => simp [sweepFromChain, Bind.bind, ask, found, Pure.pure]
  | some sig => simp [sweepFromChain, Bind.bind, ask, found, Pure.pure, spent.calls sig]

/-- The watch of a spent session looks at the chain until it ends, and sweeps nothing. -/
theorem makerSweep_spent (spent : maker.Spent S) (rounds time : Nat) :
    ∃ ended, ((w.makerSweep S rounds maker).run time).2 = .ok (ended, maker) ∧ ended ≠ .swept ∧
      Idles ((w.makerSweep S rounds maker).run time).1 := by
  induction rounds generalizing time with
  | zero => exact ⟨.watching, rfl, by rintro ⟨⟩, Idles.nil⟩
  | succ rounds ih =>
    have looked := sweepFromChain_spent (w := w) spent time
    by_cases closed : maker.st.unlockHeight ≤ w.height (time + 1)
    · refine ⟨.windowClosed, ?_, by rintro ⟨⟩, ?_⟩
      · simp [makerSweep, Bind.bind, looked, ask, closed, Pure.pure]
      · have performed : ((w.makerSweep S (rounds + 1) maker).run time).1 =
            [.scrape, .readHeight] := by
          simp [makerSweep, Bind.bind, looked, ask, closed, Pure.pure]
        rw [performed]
        exact Idles.closed
    · cases stop : w.stopping (time + 2) with
      | true =>
        refine ⟨.stopping, ?_, by rintro ⟨⟩, ?_⟩
        · simp [makerSweep, Bind.bind, looked, ask, closed, stop, Pure.pure]
        · have performed : ((w.makerSweep S (rounds + 1) maker).run time).1 =
              [.scrape, .readHeight, .wait] := by
            simp [makerSweep, Bind.bind, looked, ask, closed, stop, Pure.pure]
          rw [performed]
          exact Idles.nil.round
      | false =>
        obtain ⟨ended, returned, unswept, idles⟩ := ih (time + 3)
        have next : (w.makerSweep S (rounds + 1) maker).run time =
            (.scrape :: .readHeight :: .wait :: ((w.makerSweep S rounds maker).run (time + 3)).1,
              ((w.makerSweep S rounds maker).run (time + 3)).2) := by
          cases last : (w.makerSweep S rounds maker).run (time + 3) with
          | mk performed answer =>
          cases answer <;>
            simp [makerSweep, Bind.bind, looked, ask, closed, stop, last]
        rw [next]
        exact ⟨ended, returned, unswept, idles.round⟩

theorem makerRefund_spent (spent : maker.Spent S) (time : Nat) :
    (w.makerRefund maker).run time = ([], .ok ()) := by
  simp [makerRefund, spent.refund, Pure.pure]

theorem watchStage_of_unswept {rounds time : Nat} {ended : WatchEnd} {last : Maker Scalar Point}
    {performed : List (MakerEffect Scalar Point)} (spent : last.Spent S) (unswept : ended ≠ .swept)
    (watched : (w.makerSweep S rounds maker).run time = (performed, .ok (ended, last))) :
    (w.watchStage S rounds maker).run time = (performed, .ok ended) := by
  have refund := makerRefund_spent (w := w) spent (time + performed.length)
  cases ended with
  | swept => exact absurd rfl unswept
  | windowClosed => simp [watchStage, Bind.bind, watched, refund, Pure.pure]
  | stopping => simp [watchStage, Bind.bind, watched, Pure.pure]
  | watching => simp [watchStage, Bind.bind, watched, Pure.pure]

theorem watchStage_spent (spent : maker.Spent S) (rounds time : Nat) :
    ∃ ended performed, (w.watchStage S rounds maker).run time = (performed, .ok ended) ∧
      ended ≠ .swept ∧ Idles performed := by
  obtain ⟨ended, returned, unswept, idles⟩ := makerSweep_spent (w := w) spent rounds time
  exact ⟨ended, _, watchStage_of_unswept spent unswept (Prod.ext rfl returned), unswept, idles⟩

theorem resumeMakerRecovery_spent {st : SwapState Scalar Point} (resumed : resumeMaker S st = .ok maker)
    (spent : maker.Spent S) (rounds time : Nat) :
    ∃ ended performed, (w.resumeMakerRecovery S rounds st).run time = (performed, .ok ended) ∧
      ended ≠ .swept ∧ Idles performed := by
  obtain ⟨ended, performed, watched, unswept, idles⟩ :=
    watchStage_spent (w := w) spent rounds time
  refine ⟨ended, performed, ?_, unswept, idles⟩
  cases ended with
  | swept => exact absurd rfl unswept
  | windowClosed => simp [resumeMakerRecovery, resumed, Bind.bind, watched, Pure.pure]
  | stopping => simp [resumeMakerRecovery, resumed, Bind.bind, watched, Pure.pure]
  | watching => simp [resumeMakerRecovery, resumed, Bind.bind, watched, Pure.pure]

theorem sweepFromChain_refused {sig : FullSig Scalar Point} {secret : Scalar} {text : String}
    {time : Nat} (seen : maker.st.swapKey.bind (w.findSwapSpend time) = some sig)
    (call : maker.sweepCall S sig = some secret)
    (refused : w.sweep (time + 1) maker.st.xnoLockID secret maker.st.sweepDest = .error text) :
    (w.sweepFromChain S maker).run time =
      ([.scrape, .sweep maker.st.xnoLockID secret false], .ok (false, maker.inPhase .claimed)) := by
  have answered := Maker.sweepXNOIndependent_refused call refused
  simp [sweepFromChain, Bind.bind, ask, seen, call, refused, answered, Pure.pure, Except.isOk,
    Except.toBool]

/-- **The watch after a refused sweep.** It looks at the chain until it ends; the lock is not
swept, whatever the ledger would answer by then. -/
theorem watchStage_refused {sig : FullSig Scalar Point} {secret : Scalar} {text : String}
    {time : Nat} (seen : maker.st.swapKey.bind (w.findSwapSpend time) = some sig)
    (call : maker.sweepCall S sig = some secret)
    (refused : w.sweep (time + 1) maker.st.xnoLockID secret maker.st.sweepDest = .error text)
    (rounds : Nat) :
    ∃ ended rest, (w.watchStage S (rounds + 1) maker).run time =
        (.scrape :: .sweep maker.st.xnoLockID secret false :: rest, .ok ended) ∧
      ended ≠ .swept ∧ Idles rest := by
  have looked := sweepFromChain_refused seen call refused
  have spent : (maker.inPhase .claimed).Spent S := .of_claimed rfl
  have watched : ∃ ended rest, (w.makerSweep S (rounds + 1) maker).run time =
      (.scrape :: .sweep maker.st.xnoLockID secret false :: rest,
        .ok (ended, maker.inPhase .claimed)) ∧ ended ≠ .swept ∧ Idles rest := by
    by_cases closed : (maker.inPhase .claimed).st.unlockHeight ≤ w.height (time + 2)
    · refine ⟨.windowClosed, [.readHeight], ?_, by rintro ⟨⟩, ?_⟩
      · simp [makerSweep, Bind.bind, looked, ask, closed, Pure.pure]
      · intro effect member
        exact Or.inr (Or.inl (List.mem_singleton.mp member))
    · cases stop : w.stopping (time + 3) with
      | true =>
        refine ⟨.stopping, [.readHeight, .wait], ?_, by rintro ⟨⟩, ?_⟩
        · simp [makerSweep, Bind.bind, looked, ask, closed, stop, Pure.pure]
        · intro effect member
          exact Idles.nil.round effect (List.mem_cons_of_mem _ member)
      | false =>
        obtain ⟨ended, returned, unswept, idles⟩ :=
          makerSweep_spent (w := w) spent rounds (time + 4)
        refine ⟨ended, .readHeight :: .wait ::
          ((w.makerSweep S rounds (maker.inPhase .claimed)).run (time + 4)).1, ?_, unswept, ?_⟩
        · cases last : (w.makerSweep S rounds (maker.inPhase .claimed)).run (time + 4) with
          | mk performed answer =>
          rw [last] at returned
          change answer = _ at returned
          simp [makerSweep, Bind.bind, looked, ask, closed, stop, last, returned]
        · intro effect member
          exact idles.round effect (List.mem_cons_of_mem _ member)
  obtain ⟨ended, rest, run, unswept, idles⟩ := watched
  exact ⟨ended, rest, watchStage_of_unswept spent unswept run, unswept, idles⟩

end MakerWorld

/-! ## The law -/

section Law

variable {S : Suite Scalar Point} {m : Maker Scalar Point}

/-- **A refused sweep is never retried.** When the key checks pass and the ledger refuses the
sweep, the maker left behind, and every one resumed from its state, admits no later sweep and
no refund, and their drivers only look at the chain. A watch that meets the refusal ends
without a sweep in every world. -/
theorem refused_sweep_final {sig : FullSig Scalar Point} {secret : Scalar}
    (call : m.sweepCall S sig = some secret) :
    (∀ (sweep : Maker.Sweep Scalar) (text : String),
      sweep m.st.xnoLockID secret m.st.sweepDest = .error text →
      ∀ next, (m.sweepXNOIndependent S sweep sig).2 = next →
        ¬ next.Retryable S ∧ next.refundCall = none ∧
        (∀ resumed, resumeMaker S next.st = .ok resumed →
          ¬ resumed.Retryable S ∧ resumed.refundCall = none ∧
          ∀ (w : MakerWorld Scalar Point) (rounds time : Nat), ∃ ended performed,
            (w.resumeMakerRecovery S rounds next.st).run time = (performed, .ok ended) ∧
              ended ≠ .swept ∧ MakerWorld.Idles performed)) ∧
    (∀ (w : MakerWorld Scalar Point) (rounds time : Nat) (text : String),
      m.st.swapKey.bind (w.findSwapSpend time) = some sig →
      w.sweep (time + 1) m.st.xnoLockID secret m.st.sweepDest = .error text →
      ∃ ended rest, (w.watchStage S (rounds + 1) m).run time =
          (.scrape :: .sweep m.st.xnoLockID secret false :: rest, .ok ended) ∧
        ended ≠ .swept ∧ MakerWorld.Idles rest) := by
  constructor
  · intro sweep text refused next result
    have claimed : next.st.phase = .claimed := by
      rw [← result, Maker.sweepXNOIndependent_refused call refused]
      rfl
    have spent : next.Spent S := .of_claimed claimed
    refine ⟨spent.not_retryable, spent.refund, ?_⟩
    intro resumed loaded
    have state : resumed.st = next.st := by
      rw [resumeMaker] at loaded
      split_ifs at loaded
      rw [← Except.ok.inj loaded]
    have again : resumed.Spent S := .of_claimed (by rw [state, claimed])
    refine ⟨again.not_retryable, again.refund, ?_⟩
    intro w rounds time
    exact MakerWorld.resumeMakerRecovery_spent loaded again rounds time
  · intro w rounds time text seen refused
    exact MakerWorld.watchStage_refused seen call refused rounds

theorem toyRestarted :
    ∃ st maker, (toyStopped 14).disk = some st ∧ resumeMaker toySuite st = .ok maker ∧
      maker.st.swapKey = some [8] ∧ maker.sweepCall toySuite toyClaim = some 7 ∧
      ∀ sweep : Maker.Sweep (ZMod 101), sweep maker.st.xnoLockID 7 maker.st.sweepDest =
        .error "timeout" →
        (maker.sweepXNOIndependent toySuite sweep toyClaim).2.st.phase = .claimed := by
  refine ⟨_, _, rfl, rfl, by decide, by decide, ?_⟩
  intro sweep refused
  rw [Maker.sweepXNOIndependent_refused (by decide) refused]
  rfl

/-- The ledger times out once, and the session cannot sweep any more. -/
theorem toySweep_refused :
    ∃ st maker, (toyStopped 14).disk = some st ∧ resumeMaker toySuite st = .ok maker ∧
      maker.sweepCall toySuite toyClaim = some 7 ∧
      ¬ Maker.Retryable toySuite
        (maker.sweepXNOIndependent toySuite (fun _ _ _ => .error "timeout") toyClaim).2 := by
  obtain ⟨st, maker, disk, resumed, -, call, claimed⟩ := toyRestarted
  exact ⟨st, maker, disk, resumed, call,
    Maker.Spent.not_retryable (.of_claimed (claimed _ rfl))⟩

/-- The claim is seen at tick 14, and the ledger fails at the next tick only. -/
def toyHiccupWorld : MakerWorld (ZMod 101) (ZMod 101) :=
  { toyClaimedWorld with
    sweep := fun time _ _ _ => if time = 15 then .error "timeout" else .ok () }

/-- A sweep that is refused once is not tried again. -/
theorem toySweep_unswept :
    ∃ (maker : Maker (ZMod 101) (ZMod 101)) (ended : WatchEnd)
      (rest : List (MakerEffect (ZMod 101) (ZMod 101))),
      (toyHiccupWorld.watchStage toySuite 100 maker).run 14 =
        (.scrape :: .sweep maker.st.xnoLockID 7 false :: rest, .ok ended) ∧
      ended ≠ .swept ∧ MakerWorld.Idles rest := by
  obtain ⟨_, maker, -, -, swapKey, call, -⟩ := toyRestarted
  refine ⟨maker, (refused_sweep_final call).2 toyHiccupWorld 99 14 "timeout" ?_ rfl⟩
  rw [swapKey]
  rfl

end Law

end Obscura.Swap
