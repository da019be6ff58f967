import Mathlib.Algebra.Order.Field.Rat
import Mathlib.Tactic.Linarith
import Mathlib.Tactic.NormNum
import Obscura.Lib.OrdMap
import Obscura.P2p.HostPort

/-! # Ban scores

Misbehaviour is scored per connection and per group of addresses. The score of a group decays
with time, but only when the next report about the group arrives; the ban check compares the
score as that report left it. A group whose score has reached the threshold is therefore banned
until somebody in it is reported again, however long ago the last report was.
-/

namespace Obscura.P2p

open Wire

/-- The score at which a peer is disconnected and banned. -/
def banThreshold : Int := 20

/-- The score at which a network group is refused. -/
def groupBanThreshold : ℚ := 100

/-- The points a group loses in a minute. -/
def groupScoreDecay : ℚ := 1

/-- The seconds for which a host is banned. -/
def groupBanDuration : Int := 3600

/-- Whole seconds of an instant; instants count nanoseconds. -/
def unix (now : Int) : Int := now / 1_000_000_000

def minutes (elapsed : Int) : ℚ := elapsed / 60_000_000_000

/-- The score of a group and the time it was last brought up to date. -/
structure GroupScore where
  score : ℚ := 0
  updated : Int

/-- The linear decay up to an instant. -/
def GroupScore.decay (gs : GroupScore) (now : Int) : GroupScore :=
  let decay := minutes (now - gs.updated) * groupScoreDecay
  if 0 < decay then
    let score := gs.score - decay
    { score := if score < 0 then 0 else score, updated := now }
  else
    gs

/-- The scores of the registered peers by remote address, the seconds at which the bans of hosts
end, and the scores of the groups. -/
structure Scores where
  peers : OrdMap Bytes Int := ∅
  bans : OrdMap Bytes Int := ∅
  groupScores : OrdMap Bytes GroupScore := ∅

namespace Scores

/-- The new score of a group, decayed before the points are added. -/
def addGroupScoreLocked (n : Scores) (remote : Bytes) (pts : ℚ) (now : Int) : ℚ × Scores :=
  let g := ipGroup remote
  let gs := (n.groupScores[g]?.getD { updated := now }).decay now
  let gs := { gs with score := gs.score + pts }
  (gs.score, { n with groupScores := n.groupScores.insert g gs })

/-- `ban`: the host of a peer, until an hour from now. -/
def ban (n : Scores) (remote : Bytes) (now : Int) : Scores :=
  { n with bans := n.bans.insert (hostOf remote) (unix now + groupBanDuration) }

/-- The points of the connection; whether they reach the threshold. -/
def addPeerScore (n : Scores) (remote : Bytes) (pts now : Int) : Bool × Scores :=
  match n.peers[remote]? with
  | none => (false, n)
  | some score =>
    let n := { n with peers := n.peers.insert remote (score + pts) }
    if banThreshold ≤ score + pts then (true, n.ban remote now) else (false, n)

/-- `penalize`: the peer is disconnected when its own score or its group's reaches the threshold.
-/
def penalize (n : Scores) (remote : Bytes) (pts now : Int) : Bool × Scores :=
  let (disconnect, n) := n.addPeerScore remote pts now
  let (total, n) := n.addGroupScoreLocked remote pts now
  if groupBanThreshold ≤ total then (false, n.ban remote now) else (!disconnect, n)

/-- `groupBannedLocked`: a ban of the host, or a high enough score of its group. -/
def groupBannedLocked (n : Scores) (addr : Bytes) (now : Int) : Bool :=
  if (n.bans[hostOf addr]?.map fun ending => decide (now < ending)) = some true then
    true
  else
    match n.groupScores[ipGroup addr]? with
    | some gs => decide (groupBanThreshold ≤ gs.score)
    | none => false

end Scores

/-- A handler registers its peer, or removes it, or a message is penalized. -/
inductive Report
  | handle (remote : Bytes)
  | drop (remote : Bytes)
  | penalize (remote : Bytes) (pts now : Int)

namespace Scores

/-- The scores after a report. -/
def step (n : Scores) : Report → Scores
  | .handle remote => { n with peers := n.peers.insert remote 0 }
  | .drop remote => { n with peers := n.peers.erase remote }
  | .penalize remote pts now => (n.penalize remote pts now).2

/-- The scores after a history of reports. -/
def run (events : List Report) : Scores := events.foldl step {}

end Scores

/-! ## The score of a group over its reports -/

/-- The points and instants of the reports about a group. -/
def reports (g : Bytes) (events : List Report) : List (Int × Int) :=
  events.filterMap fun event =>
    match event with
    | .penalize remote pts now => if ipGroup remote = g then some (pts, now) else none
    | _ => none

/-- The score of a group after one report about it. -/
def addReport (gs : Option GroupScore) (report : Int × Int) : Option GroupScore :=
  let gs := (gs.getD { updated := report.2 }).decay report.2
  some { gs with score := gs.score + report.1 }

/-- The score that the reports about a group leave. -/
def groupScore (reports : List (Int × Int)) : Option GroupScore := reports.foldl addReport none

/-- The score of the group of an address as of its last report. -/
def lastScore (events : List Report) (addr : Bytes) : ℚ :=
  ((groupScore (reports (ipGroup addr) events)).map GroupScore.score).getD 0

/-- The score of the group of an address, decayed up to an instant. -/
def decayedScore (events : List Report) (addr : Bytes) (now : Int) : ℚ :=
  ((groupScore (reports (ipGroup addr) events)).map fun gs => (gs.decay now).score).getD 0

/-- The ban of the address itself is in force. -/
def Scores.Banned (n : Scores) (addr : Bytes) (now : Int) : Prop :=
  ∃ ending, n.bans[hostOf addr]? = some ending ∧ now < ending

namespace Scores

variable (n : Scores) (remote : Bytes) (pts now : Int)

theorem addPeerScore_groupScores :
    (n.addPeerScore remote pts now).2.groupScores = n.groupScores := by
  unfold addPeerScore
  split
  · rfl
  · dsimp only
    split_ifs
    · rfl
    · rfl

theorem penalize_groupScores (g : Bytes) :
    (n.penalize remote pts now).2.groupScores[g]? =
      if ipGroup remote = g then addReport n.groupScores[g]? (pts, now)
      else n.groupScores[g]? := by
  have kept := addPeerScore_groupScores n remote pts now
  have table : (n.penalize remote pts now).2.groupScores =
      ((n.addPeerScore remote pts now).2.addGroupScoreLocked remote pts now).2.groupScores := by
    unfold penalize
    dsimp only
    split_ifs
    · rfl
    · rfl
  rw [table, addGroupScoreLocked]
  dsimp only
  rw [kept, OrdMap.lookup_insert]
  split_ifs with same
  · rw [same]
    rfl
  · rfl

theorem step_groupScores (event : Report) (g : Bytes) :
    (n.step event).groupScores[g]? = (reports g [event]).foldl addReport n.groupScores[g]? := by
  cases event with
  | handle remote => rfl
  | drop remote => rfl
  | penalize remote pts now =>
    rw [step, penalize_groupScores]
    by_cases same : ipGroup remote = g
    · simp [reports, same]
    · simp [reports, same]

theorem foldl_groupScores (events : List Report) (g : Bytes) :
    (events.foldl step n).groupScores[g]? =
      (reports g events).foldl addReport n.groupScores[g]? := by
  induction events generalizing n with
  | nil => rfl
  | cons event events ih =>
    have parts : reports g (event :: events) = reports g [event] ++ reports g events := by
      rw [reports, reports, reports, ← List.filterMap_append, List.singleton_append]
    rw [List.foldl_cons, ih, step_groupScores, parts, List.foldl_append]

theorem run_groupScores (events : List Report) (g : Bytes) :
    (run events).groupScores[g]? = groupScore (reports g events) := by
  rw [run, foldl_groupScores]
  rfl

variable {n}

theorem groupBannedLocked_iff (events : List Report) (addr : Bytes) (now : Int) :
    (run events).groupBannedLocked addr now = true ↔
      (run events).Banned addr now ∨ groupBanThreshold ≤ lastScore events addr := by
  have banned : ((run events).bans[hostOf addr]?.map fun ending => decide (now < ending)) =
      some true ↔ (run events).Banned addr now := by
    rw [Option.map_eq_some_iff, Banned]
    simp only [decide_eq_true_eq]
  rw [groupBannedLocked, run_groupScores, lastScore]
  split_ifs with host
  · exact iff_of_true rfl (Or.inl (banned.mp host))
  · rw [banned] at host
    cases groupScore (reports (ipGroup addr) events) with
    | none =>
      refine iff_of_false Bool.false_ne_true ?_
      rintro (ban | high)
      · exact host ban
      · exact absurd high (by unfold groupBanThreshold; norm_num)
    | some gs => exact ⟨fun high => Or.inr (of_decide_eq_true high), fun either =>
      decide_eq_true (either.resolve_left host)⟩

end Scores

/-! ## Decay -/

theorem GroupScore.threshold_le_of_decay {gs : GroupScore} {now : Int}
    (high : groupBanThreshold ≤ (gs.decay now).score) : groupBanThreshold ≤ gs.score := by
  unfold decay at high
  dsimp only at high
  split_ifs at high with elapsed negative
  · exact absurd high (by unfold groupBanThreshold; norm_num)
  · dsimp only at high
    linarith
  · exact high

theorem threshold_le_of_decayed {events : List Report} {addr : Bytes} {now : Int}
    (high : groupBanThreshold ≤ decayedScore events addr now) :
    groupBanThreshold ≤ lastScore events addr := by
  revert high
  unfold decayedScore lastScore
  cases groupScore (reports (ipGroup addr) events) with
  | none => exact id
  | some gs => exact GroupScore.threshold_le_of_decay

/-- The ban of a host ends. -/
theorem Scores.Banned.ends (n : Scores) (addr : Bytes) :
    ∃ ending, ∀ now, ending ≤ now → ¬n.Banned addr (unix now) := by
  cases found : n.bans[hostOf addr]? with
  | none =>
    refine ⟨0, fun now _ ⟨ending, held, _⟩ => ?_⟩
    rw [found] at held
    exact Option.some_ne_none ending held.symm
  | some last =>
    refine ⟨last * 1_000_000_000, fun now late ⟨ending, held, early⟩ => ?_⟩
    rw [found] at held
    obtain rfl := Option.some.inj held
    have reached : last ≤ unix now := Int.le_ediv_of_mul_le (by decide) late
    omega

/-- **Stale scores.** After any run the ban check agrees with the decayed score exactly if the
address itself is banned, the score of its group was below the threshold at the last report, or
it still is not; and a ban of the group ends without another report exactly if the score was
below the threshold at the last one. -/
theorem group_ban (events : List Report) (addr : Bytes) :
    (∀ now, ((Scores.run events).groupBannedLocked addr (unix now) = true ↔
        (Scores.run events).Banned addr (unix now) ∨
          groupBanThreshold ≤ decayedScore events addr now) ↔
      ((Scores.run events).Banned addr (unix now) ∨
        lastScore events addr < groupBanThreshold ∨
          groupBanThreshold ≤ decayedScore events addr now)) ∧
    ((∃ ending, ∀ now, ending ≤ now →
        (Scores.run events).groupBannedLocked addr (unix now) = false) ↔
      lastScore events addr < groupBanThreshold) := by
  constructor
  · intro now
    have shrinks := @threshold_le_of_decayed events addr now
    rw [Scores.groupBannedLocked_iff, ← not_le]
    tauto
  · constructor
    · rintro ⟨ending, free⟩
      by_contra high
      have banned := (Scores.groupBannedLocked_iff events addr (unix ending)).mpr
        (Or.inr (not_lt.mp high))
      rw [free ending le_rfl] at banned
      exact Bool.false_ne_true banned
    · intro low
      obtain ⟨ending, released⟩ := Scores.Banned.ends (Scores.run events) addr
      refine ⟨ending, fun now late => ?_⟩
      rw [← Bool.not_eq_true, Scores.groupBannedLocked_iff]
      rintro (host | high)
      · exact released now late host
      · exact high.not_gt low

/-! ## A group that is never let in again -/

/-- Five connections of one host, each banned at once. -/
def offences : List Report :=
  List.replicate 5 (.penalize (ascii "203.0.113.7:4000") 20 0)

/-- A second peer of the same group. -/
def neighbour : Bytes := ascii "203.0.7.1:4000"

/-- A year in nanoseconds. -/
def year : Int := 31_536_000_000_000_000

theorem reports_offences : reports (ipGroup neighbour) offences = List.replicate 5 (20, 0) := by
  decide

theorem groupScore_offences : groupScore (List.replicate 5 (20, 0)) = some ⟨100, 0⟩ := by
  simp only [groupScore, List.replicate, List.foldl_cons, List.foldl_nil, addReport,
    GroupScore.decay, minutes, Option.getD_none, Option.getD_some]
  norm_num

/-- The bans are those of the hosts that were reported. -/
theorem Scores.run_bans (events : List Report) {host : Bytes}
    (other : ∀ remote pts now, .penalize remote pts now ∈ events → hostOf remote ≠ host) :
    (run events).bans[host]? = none := by
  induction events using List.reverseRecOn with
  | nil => rfl
  | append_singleton events event ih =>
    have earlier := ih fun remote pts now member => other remote pts now (by simp [member])
    rw [run, List.foldl_append, List.foldl_cons, List.foldl_nil]
    change (step (run events) event).bans[host]? = none
    cases event with
    | handle remote => exact earlier
    | drop remote => exact earlier
    | penalize remote pts now =>
      have apart := other remote pts now (by simp)
      have first : ((run events).addPeerScore remote pts now).2.bans[host]? = none := by
        unfold addPeerScore
        split
        · exact earlier
        · dsimp only
          split_ifs
          · rw [ban, OrdMap.lookup_insert, if_neg apart]
            exact earlier
          · exact earlier
      rw [step]
      unfold penalize
      dsimp only
      split_ifs
      · rw [ban, OrdMap.lookup_insert, if_neg apart]
        exact first
      · exact first

/-- **Banned for good.** A year after the last report the group is still banned, although its
score has long decayed and the host that asks was never banned. -/
theorem group_ban_stays :
    (Scores.run offences).groupBannedLocked neighbour (unix year) = true ∧
      ¬(Scores.run offences).Banned neighbour (unix year) ∧
      decayedScore offences neighbour year < groupBanThreshold := by
  refine ⟨?_, ?_, ?_⟩
  · rw [Scores.groupBannedLocked_iff, lastScore, reports_offences, groupScore_offences]
    exact Or.inr le_rfl
  · rintro ⟨ending, found, -⟩
    have none : (Scores.run offences).bans[hostOf neighbour]? = none := by
      refine Scores.run_bans offences fun remote pts now member => ?_
      obtain ⟨-, same⟩ := List.mem_replicate.mp member
      rw [(Report.penalize.inj same).1]
      decide
    rw [none] at found
    exact Option.some_ne_none ending found.symm
  · rw [decayedScore, reports_offences, groupScore_offences]
    simp only [Option.map_some, Option.getD_some, GroupScore.decay, minutes, year,
      groupScoreDecay, groupBanThreshold]
    norm_num

end Obscura.P2p
