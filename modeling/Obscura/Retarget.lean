import Obscura.Replay

/-! # Difficulty retargeting in machine integers

`NextDifficulty` as the source computes it: timestamps are signed 64-bit words, difficulties are
unsigned ones, and the sums are big integers. On the histories that the median and the drift
rules admit nothing wraps around, so that the words compute what `nextDifficulty` computes over
the integers, and the result stays within a factor of two of the last difficulty.
-/

namespace Obscura

namespace Retarget

/-! ## The words -/

/-- The running sums over the window. -/
structure Sums where
  weightedTime : Int := 0
  sumDiff : Int := 0
  denom : Int := 0

/-- The time between blocks that the difficulty aims at. -/
def target : Int64 := Int64.ofInt Config.targetBlockTime

/-- The clamped time between two blocks. -/
def solveTime (older newer : Int64) : Int64 :=
  let solve := newer - older
  let solve := if solve < -6 * target then -6 * target else solve
  if solve > 6 * target then 6 * target else solve

/-- One round of the loop; an index out of range panics. -/
def addSolve (ts : List Int64) (df : List UInt64) (sums : Sums) (i : Nat) : Option Sums := do
  let newer ← ts[i]?
  let older ← ts[i - 1]?
  let diff ← df[i]?
  let w := Int64.ofNat i
  return { weightedTime := sums.weightedTime + (solveTime older newer * w).toInt
           denom := sums.denom + w.toInt
           sumDiff := sums.sumDiff + diff.toNat }

/-- The two sums over the window; none where a product would pass 64 bits. -/
def windowSums (ts : List Int64) (df : List UInt64) (window : Nat) : Option Sums :=
  (List.range' 1 (window - 1)).foldlM (addSolve ts df) {}

/-- `big.Int.Div`, which panics on a zero divisor. -/
def bigDiv (x y : Int) : Option Int := if y = 0 then none else some (x / y)

/-- The next difficulty from the sums over a window and the last difficulty. -/
def fromSums (window : Nat) (sums : Sums) (last : UInt64) : Option UInt64 := do
  let minWT := (Int64.ofNat window * target / 20).toInt
  let minWT := if minWT ≤ 0 then 1 else minWT
  let weightedTime := if sums.weightedTime < minWT then minWT else sums.weightedTime
  let avgDiff ← bigDiv sums.sumDiff (window - 1)
  let next ← bigDiv (avgDiff * target.toInt * sums.denom) weightedTime
  let upper : Int := last.toNat * 2
  let lower : Int := last.toNat / 2
  let next := if next > upper then upper else next
  let next := if next < lower then lower else next
  let next := if next < minDifficulty then (minDifficulty : Int) else next
  if 0 ≤ next ∧ next < 2 ^ 64 then
    return UInt64.ofNat next.toNat
  else
    return ~~~0

/-- `consensus.NextDifficulty`; `none` is a panic. -/
def nextDifficultyWord (timestamps : List Int64) (difficulties : List UInt64) : Option UInt64 :=
  if Config.fixedDifficulty > 0 then
    some (UInt64.ofNat Config.fixedDifficulty)
  else if difficulties.length < 2 then
    some (UInt64.ofNat Config.genesisDifficulty)
  else
    let n := difficulties.length
    let window := if n < Config.difficultyWindow then n else Config.difficultyWindow
    if timestamps.length < window then
      none
    else do
      let ts := timestamps.drop (timestamps.length - window)
      let df := difficulties.drop (difficulties.length - window)
      let sums ← windowSums ts df window
      let last ← df[window - 1]?
      fromSums window sums last

/-! ## No wrap-around -/

/-- The clamped time before block `i`, over the integers. -/
def gap (ts : List Int) (i : Nat) : Int :=
  max (-6 * Config.targetBlockTime)
    (min (6 * Config.targetBlockTime) (ts.getD i 0 - ts.getD (i - 1) 0))

/-- The sums over the integers. -/
def exactSums (ts : List Int) (df : List Nat) (window : Nat) : Sums where
  weightedTime := ((List.range' 1 (window - 1)).map fun i => gap ts i * i).sum
  denom := ((List.range' 1 (window - 1)).sum : Nat)
  sumDiff := (((List.range' 1 (window - 1)).map fun i => df.getD i 0).sum : Nat)

theorem sub_exact {older newer : Int64} (early : 0 ≤ older.toInt) (late : 0 ≤ newer.toInt) :
    (newer - older).toInt = newer.toInt - older.toInt := by
  have above := newer.toInt_lt
  have below := older.toInt_lt
  rw [Int64.toInt_sub]
  exact Int.bmod_eq_of_le (by omega) (by omega)

theorem solveTime_exact {older newer : Int64} (early : 0 ≤ older.toInt) (late : 0 ≤ newer.toInt) :
    (solveTime older newer).toInt = max (-6 * Config.targetBlockTime)
      (min (6 * Config.targetBlockTime) (newer.toInt - older.toInt)) := by
  have low : (-6 * target : Int64).toInt = -720 := by decide
  have high : (6 * target : Int64).toInt = 720 := by decide
  have exact := sub_exact early late
  have bounds : (-6 * Config.targetBlockTime : Int) = -720 ∧
      (6 * Config.targetBlockTime : Int) = 720 := by decide
  rw [bounds.1, bounds.2]
  unfold solveTime
  simp only [gt_iff_lt, Int64.lt_iff_toInt_lt, low, high, exact]
  split_ifs <;> omega

theorem mul_exact {solve : Int64} {i : Nat} (low : -720 ≤ solve.toInt) (high : solve.toInt ≤ 720)
    (small : i ≤ 60) : (solve * Int64.ofNat i).toInt = solve.toInt * i := by
  have weight : (Int64.ofNat i).toInt = i := Int64.toInt_ofNat_of_lt (by omega)
  have above : solve.toInt * i ≤ 720 * i := Int.mul_le_mul_of_nonneg_right high (by omega)
  have below : -720 * (i : Int) ≤ solve.toInt * i :=
    Int.mul_le_mul_of_nonneg_right low (by omega)
  rw [Int64.toInt_mul, weight]
  exact Int.bmod_eq_of_le (by omega) (by omega)

variable {ts : List Int64} {df : List UInt64}

theorem getD_toInt {i : Nat} (inside : i < ts.length) :
    (ts.map Int64.toInt).getD i 0 = ts[i].toInt := by
  rw [List.getD_eq_getElem?_getD, List.getElem?_map, List.getElem?_eq_getElem inside]
  rfl

theorem getD_toNat {i : Nat} (inside : i < df.length) :
    (df.map UInt64.toNat).getD i 0 = df[i].toNat := by
  rw [List.getD_eq_getElem?_getD, List.getElem?_map, List.getElem?_eq_getElem inside]
  rfl

/-- One round adds the exact terms. -/
theorem addSolve_exact (paired : ts.length = df.length) (nonneg : ∀ t ∈ ts, 0 ≤ t.toInt)
    (sums : Sums) {i : Nat} (positive : 0 < i) (inside : i < ts.length) (small : i ≤ 60) :
    addSolve ts df sums i =
      some { weightedTime := sums.weightedTime + gap (ts.map Int64.toInt) i * i
             denom := sums.denom + i
             sumDiff := sums.sumDiff + (df.map UInt64.toNat).getD i 0 } := by
  have before : i - 1 < ts.length := by omega
  have early := nonneg ts[i - 1] (List.getElem_mem before)
  have late := nonneg ts[i] (List.getElem_mem inside)
  have exact := solveTime_exact early late
  have weight : (Int64.ofNat i).toInt = i := Int64.toInt_ofNat_of_lt (by omega)
  have bounds : (-6 * Config.targetBlockTime : Int) = -720 ∧
      (6 * Config.targetBlockTime : Int) = 720 := by decide
  have product := @mul_exact (solveTime ts[i - 1] ts[i]) i
    (by rw [exact]; omega) (by rw [exact]; omega) small
  rw [addSolve, List.getElem?_eq_getElem inside, List.getElem?_eq_getElem before,
    List.getElem?_eq_getElem (paired ▸ inside)]
  simp only [Option.bind_eq_bind, Option.bind_some, product, weight, exact, gap,
    getD_toInt inside, getD_toInt before, getD_toNat (paired ▸ inside)]
  rfl

/-- The loop computes the sums over the integers. -/
theorem windowSums_exact (paired : ts.length = df.length) (nonneg : ∀ t ∈ ts, 0 ≤ t.toInt)
    {window : Nat} (inside : window ≤ ts.length) (small : window ≤ 60) :
    windowSums ts df window =
      some (exactSums (ts.map Int64.toInt) (df.map UInt64.toNat) window) := by
  have upTo : ∀ rounds < window, (List.range' 1 rounds).foldlM (addSolve ts df) {} =
      some (exactSums (ts.map Int64.toInt) (df.map UInt64.toNat) (rounds + 1)) := by
    intro rounds
    induction rounds with
    | zero => exact fun _ => rfl
    | succ rounds ih =>
      intro below
      have round := addSolve_exact paired nonneg
        (exactSums (ts.map Int64.toInt) (df.map UInt64.toNat) (rounds + 1))
        (i := 1 + 1 * rounds) (by omega) (by omega) (by omega)
      rw [List.range'_concat, List.foldlM_append, ih (by omega), Option.bind_eq_bind,
        Option.bind_some, List.foldlM_cons, round]
      simp [exactSums, List.range'_concat]
  cases window with
  | zero => rfl
  | succ rounds => exact upTo rounds (by omega)

/-! ## The words compute the integers -/

theorem weightedTime_zip (ts : List Int) :
    (((List.zipWith (fun older newer : Int => max (-6 * Config.targetBlockTime)
      (min (6 * Config.targetBlockTime) (newer - older))) ts ts.tail).zipIdx 1).map
        fun (solve, weight) => solve * (weight : Int)).sum =
      ((List.range' 1 (ts.length - 1)).map fun i => gap ts i * i).sum := by
  refine congrArg List.sum (List.ext_getElem (by simp) fun i left _ => ?_)
  have inside : i + 1 < ts.length := by
    simp at left
    omega
  have early : i < ts.length := by omega
  simp [gap, List.getD_eq_getElem?_getD, List.getElem?_eq_getElem inside,
    List.getElem?_eq_getElem early, Nat.add_comm 1 i]

theorem tail_sum (df : List Nat) :
    df.tail.sum = ((List.range' 1 (df.length - 1)).map fun i => df.getD i 0).sum := by
  refine congrArg List.sum (List.ext_getElem (by simp) fun i left _ => ?_)
  have inside : i + 1 < df.length := by
    simp at left
    omega
  simp [List.getD_eq_getElem?_getD, List.getElem?_eq_getElem inside, Nat.add_comm 1 i]

theorem bigDiv_natCast {x y : Nat} (positive : 0 < y) :
    bigDiv x y = some ((x / y : Nat) : Int) := by
  rw [bigDiv, if_neg (by omega)]
  rfl

theorem minTime_exact : ∀ window ≤ Config.difficultyWindow,
    (Int64.ofNat window * target / 20).toInt = window * Config.targetBlockTime / 20 := by
  decide

/-- The clamps and the saturation over the integers. -/
def clamped (next last : Nat) : Nat :=
  let next := max minDifficulty (max (last / 2) (min (last * 2) next))
  if next < 2 ^ 64 then next else 2 ^ 64 - 1

theorem clamped_lt (next last : Nat) : clamped next last < 2 ^ 64 := by
  unfold clamped
  dsimp only
  split_ifs <;> omega

/-- The difficulty that the sums lead to. -/
theorem fromSums_exact {window : Nat} (enough : 2 ≤ window) (small : window ≤ 60)
    (weightedTime : Int) (sumDiff denom : Nat) (last : UInt64) :
    fromSums window { weightedTime, sumDiff, denom } last =
      some (UInt64.ofNat (clamped (sumDiff / (window - 1) * Config.targetBlockTime.toNat * denom /
        (max (max 1 (window * Config.targetBlockTime / 20)) weightedTime).toNat) last.toNat)) := by
  have least := minTime_exact window small
  have rate : Config.targetBlockTime = 120 := rfl
  have step : target.toInt = (Config.targetBlockTime.toNat : Int) := by decide
  have rounds : ((window : Int) - 1) = ((window - 1 : Nat) : Int) := by omega
  have time : (if weightedTime < (if (window : Int) * Config.targetBlockTime / 20 ≤ 0 then 1
      else (window : Int) * Config.targetBlockTime / 20) then
        (if (window : Int) * Config.targetBlockTime / 20 ≤ 0 then 1
          else (window : Int) * Config.targetBlockTime / 20) else weightedTime) =
      ((max (max 1 (window * Config.targetBlockTime / 20)) weightedTime).toNat : Int) := by
    rw [rate]
    split_ifs <;> omega
  have positive : 0 < (max (max 1 (window * Config.targetBlockTime / 20)) weightedTime).toNat := by
    omega
  have product : ((sumDiff / (window - 1) : Nat) : Int) * (Config.targetBlockTime.toNat : Int) *
      (denom : Int) =
      ((sumDiff / (window - 1) * Config.targetBlockTime.toNat * denom : Nat) : Int) := by
    push_cast
    rfl
  unfold fromSums
  simp only [least, step, rounds, time, bigDiv_natCast (show 0 < window - 1 by omega),
    Option.bind_eq_bind, Option.bind_some, product, bigDiv_natCast positive]
  generalize sumDiff / (window - 1) * Config.targetBlockTime.toNat * denom /
    (max (max 1 (window * Config.targetBlockTime / 20)) weightedTime).toNat = next
  have clamps : (if (if (if (next : Int) > last.toNat * 2 then (last.toNat * 2 : Int) else next) <
        last.toNat / 2 then (last.toNat / 2 : Int)
      else if (next : Int) > last.toNat * 2 then (last.toNat * 2 : Int) else next) <
        minDifficulty then (minDifficulty : Int)
      else if (if (next : Int) > last.toNat * 2 then (last.toNat * 2 : Int) else next) <
        last.toNat / 2 then (last.toNat / 2 : Int)
      else if (next : Int) > last.toNat * 2 then (last.toNat * 2 : Int) else next) =
      ((max minDifficulty (max (last.toNat / 2) (min (last.toNat * 2) next)) : Nat) : Int) := by
    unfold minDifficulty
    split_ifs <;> omega
  rw [clamps, clamped]
  generalize max minDifficulty (max (last.toNat / 2) (min (last.toNat * 2) next)) = value
  by_cases fits : value < 2 ^ 64
  · rw [if_pos (by omega), if_pos fits, Int.toNat_natCast]
    rfl
  · rw [if_neg (by omega), if_neg fits]
    rfl

/-- **Exactness.** The words compute the difficulty of the rules. -/
theorem nextDifficultyWord_exact (paired : ts.length = df.length)
    (nonneg : ∀ t ∈ ts, 0 ≤ t.toInt) : (nextDifficultyWord ts df).map UInt64.toNat =
      some (nextDifficulty (ts.map Int64.toInt) (df.map UInt64.toNat)) := by
  unfold nextDifficultyWord nextDifficulty
  have unpegged : ¬ Config.fixedDifficulty > 0 := by decide
  rw [if_neg unpegged, if_neg unpegged, List.length_map, List.length_map]
  by_cases few : df.length < 2
  · rw [if_pos few, if_pos few]
    rfl
  · have chosen : (if df.length < Config.difficultyWindow then df.length
        else Config.difficultyWindow) = min df.length Config.difficultyWindow := by
      split_ifs <;> omega
    have enough : ¬ ts.length < min df.length Config.difficultyWindow := by omega
    rw [if_neg few, if_neg few]
    simp only [chosen, if_neg enough, ← List.map_drop]
    have width : Config.difficultyWindow = 60 := rfl
    obtain ⟨window, chosenWindow⟩ : ∃ window, min df.length Config.difficultyWindow = window :=
      ⟨_, rfl⟩
    rw [chosenWindow]
    have small : window ≤ 60 := by omega
    have two : 2 ≤ window := by omega
    have lengthTs : (ts.drop (ts.length - window)).length = window := by
      rw [List.length_drop]
      omega
    have lengthDf : (df.drop (df.length - window)).length = window := by
      rw [List.length_drop]
      omega
    have kept : ∀ t ∈ ts.drop (ts.length - window), 0 ≤ t.toInt := fun t member =>
      nonneg t (List.mem_of_mem_drop member)
    generalize ts.drop (ts.length - window) = recentTs at *
    generalize df.drop (df.length - window) = recentDf at *
    have sums := windowSums_exact (lengthTs.trans lengthDf.symm) kept lengthTs.ge small
    have inside : window - 1 < recentDf.length := by omega
    have last : ((recentDf.map UInt64.toNat).getLast?).getD 0 = recentDf[window - 1].toNat := by
      rw [List.getLast?_map, List.getLast?_eq_getElem?, lengthDf,
        List.getElem?_eq_getElem inside]
      rfl
    have times := weightedTime_zip (recentTs.map Int64.toInt)
    have diffs := tail_sum (recentDf.map UInt64.toNat)
    rw [List.length_map, lengthTs] at times
    rw [List.length_map, lengthDf] at diffs
    rw [sums, List.getElem?_eq_getElem inside]
    simp only [Option.bind_eq_bind, Option.bind_some, exactSums]
    rw [fromSums_exact two small, last, times, diffs]
    exact congrArg some (UInt64.toNat_ofNat_of_lt' (clamped_lt _ _))

/-! ## Bounds -/

theorem clamped_bounds (next : Nat) {last : Nat} (word : last < 2 ^ 64) :
    minDifficulty ≤ clamped next last ∧ last / 2 ≤ clamped next last ∧
      clamped next last ≤ max minDifficulty (min (last * 2) (2 ^ 64 - 1)) := by
  unfold clamped minDifficulty
  dsimp only
  split_ifs <;> omega

theorem nextDifficulty_clamped (timestamps : List Int) (difficulties : List Nat)
    (enough : 2 ≤ difficulties.length) : ∃ next, nextDifficulty timestamps difficulties =
      clamped next (difficulties.getLast?.getD 0) := by
  have unpegged : ¬ Config.fixedDifficulty > 0 := by decide
  have width : Config.difficultyWindow = 60 := rfl
  have last : (difficulties.drop (difficulties.length -
      min difficulties.length Config.difficultyWindow)).getLast? = difficulties.getLast? := by
    rw [List.getLast?_drop, if_neg (by omega)]
  unfold nextDifficulty
  rw [if_neg unpegged, if_neg (by omega)]
  dsimp only
  rw [last]
  exact ⟨_, rfl⟩

/-! ## The histories that validation admits -/

/-- The timestamps and difficulties of a chain, oldest first. -/
abbrev History := List (Int64 × UInt64)

/-- The median of the last eleven timestamps. -/
def medianTimePast (history : History) : Int64 :=
  let recent := (history.drop (history.length - 11)).map Prod.fst
  ((recent.insertionSort (· ≤ ·))[recent.length / 2]?).getD 0

/-- The timestamps and difficulties that the retargeting reads. -/
def recentTimestampsAndDiffs (history : History) : List Int64 × List UInt64 :=
  let recent := history.drop (history.length - (Config.difficultyWindow + 1))
  (recent.map Prod.fst, recent.map Prod.snd)

/-- The genesis block, and later blocks after the median and not too far in the future. -/
inductive Timely : History → Prop
  | genesis : Timely [(Int64.ofInt genesisTimestamp, UInt64.ofNat Config.genesisDifficulty)]
  | extend {history : History} {timestamp : Int64} {difficulty : UInt64} (now : Int64)
      (timely : Timely history) (afterMedian : medianTimePast history < timestamp)
      (notFuture : timestamp ≤ now + Int64.ofInt Config.maxFutureDriftSeconds) :
      Timely (history ++ [(timestamp, difficulty)])

/-- The median is not negative. -/
theorem medianTimePast_nonneg {history : History} (nonneg : ∀ b ∈ history, 0 ≤ b.1.toInt) :
    0 ≤ (medianTimePast history).toInt := by
  unfold medianTimePast
  dsimp only
  generalize taken : (((history.drop (history.length - 11)).map Prod.fst).insertionSort
    (· ≤ ·))[((history.drop (history.length - 11)).map Prod.fst).length / 2]? = median
  cases median with
  | none => decide
  | some t =>
    have among := (List.mem_insertionSort (· ≤ ·)).mp (List.mem_of_getElem? taken)
    obtain ⟨b, member, rfl⟩ := List.mem_map.mp among
    exact nonneg b (List.mem_of_mem_drop member)

theorem Timely.nonneg {history : History} (timely : Timely history) :
    ∀ b ∈ history, 0 ≤ b.1.toInt := by
  induction timely with
  | genesis =>
    intro b member
    rw [List.mem_singleton.mp member]
    decide
  | extend now timely afterMedian notFuture ih =>
    intro b member
    rcases List.mem_append.mp member with old | new
    · exact ih b old
    · have later := Int64.lt_iff_toInt_lt.mp afterMedian
      have start := medianTimePast_nonneg ih
      rw [List.mem_singleton.mp new]
      dsimp only
      omega

theorem Timely.alone {history : History} (timely : Timely history)
    (short : history.length < 2) :
    history = [(Int64.ofInt genesisTimestamp, UInt64.ofNat Config.genesisDifficulty)] := by
  cases timely with
  | genesis => rfl
  | extend now timely afterMedian notFuture =>
    cases timely <;> simp at short

/-- Every window of the last blocks is summed without wrap-around. -/
def ExactSums (timestamps : List Int64) (difficulties : List UInt64) : Prop :=
  ∀ window ≤ Config.difficultyWindow, window ≤ timestamps.length →
    windowSums (timestamps.drop (timestamps.length - window))
        (difficulties.drop (difficulties.length - window)) window =
      some (exactSums ((timestamps.drop (timestamps.length - window)).map Int64.toInt)
        ((difficulties.drop (difficulties.length - window)).map UInt64.toNat) window)

/-- What the retarget gives after some timestamps and difficulties. -/
structure Retargets (timestamps : List Int64) (difficulties : List UInt64) (next : UInt64) :
    Prop where
  computed : nextDifficultyWord timestamps difficulties = some next
  sums : ExactSums timestamps difficulties
  integers : next.toNat =
    nextDifficulty (timestamps.map Int64.toInt) (difficulties.map UInt64.toNat)
  least : minDifficulty ≤ next.toNat
  half : ((difficulties.map UInt64.toNat).getLast?).getD 0 / 2 ≤ next.toNat
  twice : next.toNat ≤ max minDifficulty
    (min (((difficulties.map UInt64.toNat).getLast?).getD 0 * 2) (2 ^ 64 - 1))

/-- The sums do not overflow. -/
theorem sums_exact {timestamps : List Int64} {difficulties : List UInt64}
    (paired : timestamps.length = difficulties.length) (nonneg : ∀ t ∈ timestamps, 0 ≤ t.toInt) :
    ExactSums timestamps difficulties := by
  intro window small inside
  have length : (timestamps.drop (timestamps.length - window)).length = window := by
    rw [List.length_drop]
    omega
  refine windowSums_exact ?_ (fun t member => nonneg t (List.mem_of_mem_drop member))
    length.ge small
  rw [length, List.length_drop]
  omega

theorem getLast_word (difficulties : List UInt64) :
    ((difficulties.map UInt64.toNat).getLast?).getD 0 < 2 ^ 64 := by
  rw [List.getLast?_map]
  cases difficulties.getLast? with
  | none => decide
  | some d => exact d.toNat_lt

/-- The retargeting succeeds. -/
theorem retargets {timestamps : List Int64} {difficulties : List UInt64}
    (paired : timestamps.length = difficulties.length) (nonneg : ∀ t ∈ timestamps, 0 ≤ t.toInt)
    (enough : 2 ≤ difficulties.length) : ∃ next, Retargets timestamps difficulties next := by
  obtain ⟨next, computed, integers⟩ :=
    Option.map_eq_some_iff.mp (nextDifficultyWord_exact paired nonneg)
  obtain ⟨raw, formula⟩ := nextDifficulty_clamped (timestamps.map Int64.toInt)
    (difficulties.map UInt64.toNat) (by rwa [List.length_map])
  obtain ⟨least, half, twice⟩ := clamped_bounds raw (getLast_word difficulties)
  rw [← formula, ← integers] at least half twice
  exact ⟨next, computed, sums_exact paired nonneg, integers, least, half, twice⟩

/-- So it does on the end of a history. -/
theorem Timely.retargets_suffix {history recent : History} (timely : Timely history)
    (suffix : recent <:+ history) (whole : recent = history ∨ 2 ≤ recent.length) :
    ∃ next, Retargets (recent.map Prod.fst) (recent.map Prod.snd) next := by
  have paired : (recent.map Prod.fst).length = (recent.map Prod.snd).length := by
    rw [List.length_map, List.length_map]
  have nonneg : ∀ t ∈ recent.map Prod.fst, 0 ≤ t.toInt := by
    intro t member
    obtain ⟨b, among, rfl⟩ := List.mem_map.mp member
    exact timely.nonneg b (suffix.subset among)
  by_cases enough : 2 ≤ recent.length
  · exact retargets paired nonneg (by rwa [List.length_map])
  · have sums := sums_exact paired nonneg
    obtain rfl := whole.resolve_right enough
    rw [timely.alone (Nat.not_le.mp enough)] at sums ⊢
    exact ⟨UInt64.ofNat Config.genesisDifficulty, rfl, sums, rfl, by decide, by decide, by decide⟩

/-- So it does on the recent blocks. -/
theorem Timely.retargets_recent {history : History} (timely : Timely history) :
    ∃ next, Retargets (recentTimestampsAndDiffs history).1 (recentTimestampsAndDiffs history).2
      next := by
  have width : Config.difficultyWindow = 60 := rfl
  refine timely.retargets_suffix (List.drop_suffix _ _) ?_
  by_cases short : history.length ≤ Config.difficultyWindow + 1
  · left
    rw [Nat.sub_eq_zero_of_le short, List.drop_zero]
  · right
    rw [List.length_drop]
    omega

/-! ## The chain's own histories -/

/-- The timestamps and difficulties of a list of headers. -/
def ofHeaders (headers : List Header) : History :=
  headers.map fun h => (Int64.ofInt h.timestamp, UInt64.ofNat h.difficulty)

/-- The header fields fit their words. -/
def Words (headers : List Header) : Prop :=
  ∀ h ∈ headers, (-2 ^ 63 ≤ h.timestamp ∧ h.timestamp < 2 ^ 63) ∧ h.difficulty < 2 ^ 64

theorem toInt_ofInt {t : Int} (word : -2 ^ 63 ≤ t ∧ t < 2 ^ 63) : (Int64.ofInt t).toInt = t :=
  Int64.toInt_ofInt_of_le word.1 word.2

/-- The median of the headers. -/
theorem medianTimePast_ofHeaders {L : Ledger} (words : Words L.headers) :
    (medianTimePast (ofHeaders L.headers)).toInt = L.medianTimePast := by
  have times : ((ofHeaders L.headers).drop ((ofHeaders L.headers).length - 11)).map Prod.fst =
      ((L.headers.drop (L.headers.length - 11)).map Header.timestamp).map Int64.ofInt := by
    rw [ofHeaders, List.length_map, ← List.map_drop, List.map_map, List.map_map]
    rfl
  have word : ∀ t ∈ (L.headers.drop (L.headers.length - 11)).map Header.timestamp,
      (Int64.ofInt t).toInt = t := by
    intro t member
    obtain ⟨h, among, rfl⟩ := List.mem_map.mp member
    exact toInt_ofInt (words h (List.mem_of_mem_drop among)).1
  unfold medianTimePast Ledger.medianTimePast
  rw [times]
  generalize (L.headers.drop (L.headers.length - 11)).map Header.timestamp = recent at word
  have sorted : (recent.insertionSort (· ≤ ·)).map Int64.ofInt =
      (recent.map Int64.ofInt).insertionSort (· ≤ ·) := by
    refine List.map_insertionSort _ _ Int64.ofInt recent fun s early t late => ?_
    rw [Int64.le_iff_toInt_le, word s early, word t late]
  dsimp only
  rw [← sorted, List.length_map, List.getElem?_map]
  cases taken : (recent.insertionSort (· ≤ ·))[recent.length / 2]? with
  | none => rfl
  | some t => exact word t ((List.mem_insertionSort (· ≤ ·)).mp (List.mem_of_getElem? taken))

/-- The accepted blocks of a chain make such a history. -/
theorem chained_timely {V : Primitives} {chain : List Block}
    (chained : Chained V (Admitted V) chain) (words : Words (replay V chain).headers) :
    Timely (ofHeaders (replay V chain).headers) := by
  induction chain with
  | nil =>
    obtain ⟨_, applied⟩ := genesis_applied (V := V)
    have alone : (replay V []).headers = [(genesisBlock V (.empty V)).header] := applied.headers
    rw [alone]
    exact Timely.genesis
  | cons b older ih =>
    obtain ⟨below, ⟨skip, now, accepted⟩, -⟩ := chained
    obtain ⟨cb, _, L', block, -, run, applied, -⟩ := (Chained.regular below).step accepted
    obtain ⟨tip, -, header⟩ := block.header
    have headers : (replay V (b :: older)).headers = (replay V older).headers ++ [b.header] := by
      rw [replay, run]
      exact applied.headers
    rw [headers] at words ⊢
    have before : Words (replay V older).headers := fun h member =>
      words h (List.mem_append_left _ member)
    have word := (words b.header (List.mem_append_right _ (List.mem_singleton_self _))).1
    rw [ofHeaders, List.map_append]
    refine Timely.extend (Int64.ofInt (2 ^ 63 - 1 - Config.maxFutureDriftSeconds))
      (ih below before) ?_ ?_
    · rw [Int64.lt_iff_toInt_lt, toInt_ofInt word]
      exact (medianTimePast_ofHeaders before).trans_lt header.afterMedian
    · have latest : (Int64.ofInt (2 ^ 63 - 1 - Config.maxFutureDriftSeconds) +
          Int64.ofInt Config.maxFutureDriftSeconds).toInt = 2 ^ 63 - 1 := by decide
      rw [Int64.le_iff_toInt_le, latest, toInt_ofInt word]
      omega

theorem expectedDifficulty_word {V : Primitives} {chain : List Block}
    (chained : Chained V (Admitted V) chain) (words : Words (replay V chain).headers) :
    ∃ next, nextDifficultyWord
        (recentTimestampsAndDiffs (ofHeaders (replay V chain).headers)).1
        (recentTimestampsAndDiffs (ofHeaders (replay V chain).headers)).2 = some next ∧
      next.toNat = (replay V chain).expectedDifficulty := by
  obtain ⟨next, retargets⟩ := (chained_timely chained words).retargets_recent
  refine ⟨next, retargets.computed, retargets.integers.trans ?_⟩
  generalize (replay V chain) = L at words
  rw [Ledger.expectedDifficulty, Ledger.recentTimestampsAndDiffs, recentTimestampsAndDiffs,
    ofHeaders, List.length_map, ← List.map_drop]
  dsimp only
  rw [List.map_map, List.map_map, List.map_map, List.map_map]
  congr 1
  · refine List.map_congr_left fun h member => ?_
    exact toInt_ofInt (words h (List.mem_of_mem_drop member)).1
  · refine List.map_congr_left fun h member => ?_
    exact UInt64.toNat_ofNat_of_lt' (words h (List.mem_of_mem_drop member)).2

/-- The next difficulty of every history that passes validation's rules on timestamps, and of its
last blocks as the chain passes them on, is computed without a panic and without wrap-around, and
lies within a factor of two of the last one, above the minimum and inside the words. -/
theorem retarget_bounds {history : History} (timely : Timely history) :
    (∃ next, Retargets (history.map Prod.fst) (history.map Prod.snd) next) ∧
      ∃ next, Retargets (recentTimestampsAndDiffs history).1 (recentTimestampsAndDiffs history).2
        next :=
  ⟨timely.retargets_suffix List.suffix_rfl (Or.inl rfl), timely.retargets_recent⟩

/-- The last block is older than the one before it. -/
def sample : History :=
  [(1_700_000_000, 64), (1_700_001_000, 64), (1_700_001_100, 40), (1_700_001_050, 80)]

theorem sample_timely : Timely sample := by
  refine @Timely.extend [_, _, _] _ _ 1_700_002_000 ?_ (by decide) (by decide)
  refine @Timely.extend [_, _] _ _ 1_700_002_000 ?_ (by decide) (by decide)
  refine @Timely.extend [_] _ _ 1_700_002_000 ?_ (by decide) (by decide)
  exact Timely.genesis

theorem retarget_bounds_sample :
    (∃ next, Retargets (sample.map Prod.fst) (sample.map Prod.snd) next) ∧
      ∃ next, Retargets (recentTimestampsAndDiffs sample).1 (recentTimestampsAndDiffs sample).2
        next :=
  retarget_bounds sample_timely

end Retarget

end Obscura
