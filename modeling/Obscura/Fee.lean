import Mathlib
import Obscura.Lib.OrderStatistic

/-! # Fee estimation

Each recent block tells which rate was necessary to get in: the floor, or a percentile of its
rates if it was congested. The estimate is the median of these samples between the floor and a
multiple of it. The percentile of a target is taken as an index into the sorted rates.
-/

namespace Obscura.Fee

open OrderStatistic

/-- A block this full counts as congested. -/
def congestionThreshold : ℚ := 4 / 5

/-- The estimate stays below this multiple of the floor. -/
def maxFeeMultiplier : UInt64 := 1000

/-- What the estimator looks at in a block. -/
structure BlockFees where
  /-- The fee per byte of each transaction. -/
  rates : List UInt64
  fullness : ℚ
deriving DecidableEq

variable (index : Int → Nat → Int)

/-- The place of the percentile of a target in so many rates. -/
def place (target : Int) (count : Nat) : Nat :=
  let idx := index target count
  let idx := if idx < 0 then 0 else idx
  let idx := if (count : Int) ≤ idx then (count : Int) - 1 else idx
  idx.toNat

/-- The rate a block asks for: the floor, unless it was congested. -/
def blockSample (b : BlockFees) (target : Int) (floor : UInt64) : UInt64 :=
  if b.fullness < congestionThreshold ∨ b.rates = [] then
    floor
  else
    let s := (sorted b.rates).getD (place index target b.rates.length) 0
    if s < floor then floor else s

/-- The middle of a sorted list, or the mean of the two in the middle. -/
def median (samples : List UInt64) : UInt64 :=
  if samples.length % 2 = 0 then
    (samples.getD (samples.length / 2 - 1) 0 + samples.getD (samples.length / 2) 0) / 2
  else
    samples.getD (samples.length / 2) 0

/-- The median between the floor and its multiple. -/
def clamp (floor med : UInt64) : UInt64 :=
  let med := if med < floor then floor else med
  let capRate := floor * maxFeeMultiplier
  if capRate < med then capRate else med

/-- The floor that is used: zero counts as one. -/
def floorOf (floor : UInt64) : UInt64 := if floor = 0 then 1 else floor

/-- The clamped median over recent blocks. -/
def estimate (blocks : List BlockFees) (target : Int) (floor : UInt64) : UInt64 :=
  let floor := floorOf floor
  if blocks = [] then
    floor
  else
    clamp floor (median (sorted (blocks.map fun b => blockSample index b target floor)))

/-- Sums of two rates or of two floors fit, and so does the cap. -/
structure Small (blocks : List BlockFees) (floor : UInt64) : Prop where
  rates : ∀ b ∈ blocks, ∀ rate ∈ b.rates, 2 * rate.toNat < 2 ^ 64
  cap : floor.toNat * maxFeeMultiplier.toNat < 2 ^ 64

/-! ## Samples -/

section Samples

variable {index} {blocks : List BlockFees} {floor : UInt64} {target : Int}

theorem place_lt (target : Int) {count : Nat} (positive : 0 < count) :
    place index target count < count := by
  unfold place
  dsimp only
  split_ifs <;> omega

theorem place_mono (monotone : ∀ target target' count, target ≤ target' →
      index target' count ≤ index target count) {target' : Int} (le : target ≤ target')
    (count : Nat) : place index target' count ≤ place index target count := by
  have below := monotone target target' count le
  unfold place
  dsimp only
  split_ifs <;> omega

theorem blockSample_mem (b : BlockFees) (target : Int) (floor : UInt64) :
    blockSample index b target floor = floor ∨ blockSample index b target floor ∈ b.rates := by
  unfold blockSample
  split_ifs with quiet
  · exact Or.inl rfl
  · dsimp only
    split_ifs with low
    · exact Or.inl rfl
    · right
      have inside : place index target b.rates.length < (sorted b.rates).length := by
        rw [length_sorted]
        exact place_lt target (List.length_pos_iff.mpr fun none => quiet (Or.inr none))
      rw [List.getD_eq_getElem?_getD, List.getElem?_eq_getElem inside, Option.getD_some]
      exact (List.perm_insertionSort _ b.rates).mem_iff.mp (List.getElem_mem inside)

theorem blockSample_small (small : Small blocks floor) :
    ∀ s ∈ blocks.map (fun b => blockSample index b target floor), 2 * s.toNat < 2 ^ 64 := by
  intro s member
  obtain ⟨b, listed, rfl⟩ := List.mem_map.mp member
  rcases @blockSample_mem index b target floor with same | rate
  · have cap := small.cap
    have factor : maxFeeMultiplier.toNat = 1000 := rfl
    rw [factor] at cap
    rw [same]
    omega
  · exact small.rates b listed _ rate

/-- A more patient target does not raise a sample. -/
theorem blockSample_mono (monotone : ∀ target target' count, target ≤ target' →
      index target' count ≤ index target count) {target' : Int} (le : target ≤ target')
    (b : BlockFees) : blockSample index b target' floor ≤ blockSample index b target floor := by
  unfold blockSample
  split_ifs with quiet
  · exact UInt64.le_refl _
  · have positive : 0 < b.rates.length :=
      List.length_pos_iff.mpr fun none => quiet (Or.inr none)
    have inside : place index target b.rates.length < (sorted b.rates).length := by
      rw [length_sorted]
      exact place_lt target positive
    have below := place_mono monotone le b.rates.length
    have ordered := List.pairwise_insertionSort (· ≤ ·) b.rates
    have rates : (sorted b.rates).getD (place index target' b.rates.length) 0 ≤
        (sorted b.rates).getD (place index target b.rates.length) 0 := by
      rw [List.getD_eq_getElem?_getD, List.getD_eq_getElem?_getD,
        List.getElem?_eq_getElem inside, List.getElem?_eq_getElem (below.trans_lt inside)]
      rcases Nat.lt_or_eq_of_le below with less | same
      · exact List.pairwise_iff_getElem.mp ordered _ _ _ inside less
      · simp only [same]
        exact UInt64.le_refl _
    dsimp only
    rw [UInt64.le_iff_toNat_le] at rates ⊢
    split_ifs with low low' <;> rw [UInt64.lt_iff_toNat_lt] at * <;> omega

end Samples

/-! ## The median -/

section Median

variable {samples : List UInt64}

theorem half_sum {x y : UInt64} (left : 2 * x.toNat < 2 ^ 64) (right : 2 * y.toNat < 2 ^ 64) :
    ((x + y) / 2).toNat = (x.toNat + y.toNat) / 2 := by
  rw [UInt64.toNat_div, UInt64.toNat_add, Nat.mod_eq_of_lt (by omega)]
  rfl

/-- The median lies between any bounds that few samples violate. -/
theorem median_bounds {low high : UInt64} (positive : 0 < samples.length)
    (small : ∀ s ∈ samples, 2 * s.toNat < 2 ^ 64)
    (lower : 2 * (samples.countP fun s => !decide (low ≤ s)) < samples.length)
    (upper : samples.length < 2 * samples.countP fun s => decide (s ≤ high)) :
    low ≤ median (sorted samples) ∧ median (sorted samples) ≤ high := by
  have between : ∀ k, (samples.countP fun s => !decide (low ≤ s)) ≤ k →
      k < (samples.countP fun s => decide (s ≤ high)) → k < samples.length →
      low ≤ (sorted samples).getD k 0 ∧ (sorted samples).getD k 0 ≤ high ∧
        2 * ((sorted samples).getD k 0).toNat < 2 ^ 64 := by
    intro k few many inside
    have found : (sorted samples)[k]? = some ((sorted samples).getD k 0) := by
      rw [← length_sorted samples] at inside
      rw [List.getD_eq_getElem?_getD, List.getElem?_eq_getElem inside]
      rfl
    refine ⟨ge_of_count found few, le_of_count found many, small _ ?_⟩
    exact (List.perm_insertionSort _ samples).mem_iff.mp (List.mem_of_getElem? found)
  obtain ⟨above, below, fits⟩ := between (samples.length / 2) (by omega) (by omega) (by omega)
  unfold median
  rw [length_sorted]
  split_ifs with even
  · obtain ⟨above', below', fits'⟩ :=
      between (samples.length / 2 - 1) (by omega) (by omega) (by omega)
    rw [UInt64.le_iff_toNat_le, UInt64.le_iff_toNat_le, half_sum fits' fits]
    rw [UInt64.le_iff_toNat_le] at above below above' below'
    omega
  · exact ⟨above, below⟩

/-- Smaller samples have a smaller median. -/
theorem median_mono {α : Type} {values : List α} {f g : α → UInt64}
    (le : ∀ value ∈ values, f value ≤ g value) (positive : 0 < values.length)
    (small : ∀ s ∈ values.map f, 2 * s.toNat < 2 ^ 64)
    (small' : ∀ s ∈ values.map g, 2 * s.toNat < 2 ^ 64) :
    median (sorted (values.map f)) ≤ median (sorted (values.map g)) := by
  have found : ∀ (h : α → UInt64) (k : Nat), k < values.length →
      (sorted (values.map h))[k]? = some ((sorted (values.map h)).getD k 0) := by
    intro h k inside
    have inside' : k < (sorted (values.map h)).length := by
      rwa [length_sorted, List.length_map]
    rw [List.getD_eq_getElem?_getD, List.getElem?_eq_getElem inside']
    rfl
  have fits : ∀ (h : α → UInt64), (∀ s ∈ values.map h, 2 * s.toNat < 2 ^ 64) → ∀ k,
      k < values.length → 2 * ((sorted (values.map h)).getD k 0).toNat < 2 ^ 64 :=
    fun h bounded k inside => bounded _ ((List.perm_insertionSort _ _).mem_iff.mp
      (List.mem_of_getElem? (found h k inside)))
  have each : ∀ k < values.length,
      (sorted (values.map f)).getD k 0 ≤ (sorted (values.map g)).getD k 0 :=
    fun k inside => mono le (found f k inside) (found g k inside)
  have middle := each (values.length / 2) (by omega)
  unfold median
  rw [length_sorted, length_sorted, List.length_map, List.length_map]
  split_ifs with even
  · have before := each (values.length / 2 - 1) (by omega)
    rw [UInt64.le_iff_toNat_le] at middle before ⊢
    rw [half_sum (fits f small _ (by omega)) (fits f small _ (by omega)),
      half_sum (fits g small' _ (by omega)) (fits g small' _ (by omega))]
    omega
  · exact middle

theorem clamp_mono (floor : UInt64) {x y : UInt64} (le : x ≤ y) : clamp floor x ≤ clamp floor y := by
  unfold clamp
  dsimp only
  generalize floor * maxFeeMultiplier = cap
  rw [UInt64.le_iff_toNat_le] at le ⊢
  split_ifs <;> simp only [UInt64.lt_iff_toNat_lt] at * <;> omega

end Median

/-! ## The estimate -/

section Estimate

variable {index} {floor : UInt64}

theorem Small.floorOf {blocks : List BlockFees} (small : Small blocks floor) :
    Small blocks (floorOf floor) := by
  refine ⟨small.rates, ?_⟩
  unfold Fee.floorOf
  split_ifs
  · decide
  · exact small.cap

/-- The blocks of a window that are the same in another one. -/
def untouched (blocks blocks' : List BlockFees) : List BlockFees :=
  ((blocks.zip blocks').filter fun pair => pair.1 = pair.2).map Prod.snd

/-- How many blocks of a window were replaced. -/
def replaced (blocks blocks' : List BlockFees) : Nat :=
  (blocks.zip blocks').countP fun pair => pair.1 ≠ pair.2

theorem length_untouched {blocks blocks' : List BlockFees} (length : blocks.length = blocks'.length) :
    (untouched blocks blocks').length + replaced blocks blocks' = blocks'.length := by
  have parts := List.length_eq_countP_add_countP (fun pair : BlockFees × BlockFees =>
    decide (pair.1 = pair.2)) (l := blocks.zip blocks')
  rw [List.length_zip, length, Nat.min_self] at parts
  rw [untouched, replaced, List.length_map, ← List.countP_eq_length_filter, parts]
  simp

theorem countP_replaced {blocks blocks' : List BlockFees} (length : blocks.length = blocks'.length)
    {f : BlockFees → UInt64} {p : UInt64 → Bool}
    (holds : ∀ b ∈ untouched blocks blocks', p (f b) = true) :
    ((blocks'.map f).countP fun s => !p s) ≤ replaced blocks blocks' := by
  have second : (blocks.zip blocks').map Prod.snd = blocks' :=
    List.map_snd_zip (Nat.le_of_eq length.symm)
  rw [← second, List.map_map, List.countP_map, replaced, second]
  refine List.countP_mono_left fun pair member fails => ?_
  simp only [Function.comp, Bool.not_eq_true'] at fails
  refine decide_eq_true fun same => ?_
  have kept : pair.2 ∈ untouched blocks blocks' :=
    List.mem_map.mpr ⟨pair, List.mem_filter.mpr ⟨member, decide_eq_true same⟩, rfl⟩
  rw [holds _ kept] at fails
  cases fails

/-- **Resistance and monotonicity.** Replacing fewer than half of the blocks leaves the estimate
between the samples of the others; a more patient target does not raise it. -/
theorem estimate_spec (monotone : ∀ target target' count, target ≤ target' →
      index target' count ≤ index target count) (floor : UInt64) :
    (∀ blocks blocks' target, blocks.length = blocks'.length →
      2 * replaced blocks blocks' < blocks.length → Small blocks' floor →
      let samples := (untouched blocks blocks').map fun b =>
        blockSample index b target (floorOf floor)
      ∃ low ∈ samples, ∃ high ∈ samples, (∀ s ∈ samples, low ≤ s ∧ s ≤ high) ∧
        clamp (floorOf floor) low ≤ estimate index blocks' target floor ∧
        estimate index blocks' target floor ≤ clamp (floorOf floor) high) ∧
    ∀ blocks target target', Small blocks floor → target ≤ target' →
      estimate index blocks target' floor ≤ estimate index blocks target floor := by
  constructor
  · intro blocks blocks' target length few small samples
    have kept := length_untouched length
    have nonempty : samples ≠ [] := by
      rw [← List.length_pos_iff, List.length_map]
      omega
    obtain ⟨low, lowIn, high, highIn, bounds⟩ := exists_extremes nonempty
    refine ⟨low, lowIn, high, highIn, bounds, ?_⟩
    have sample : ∀ b ∈ untouched blocks blocks',
        low ≤ blockSample index b target (floorOf floor) ∧
          blockSample index b target (floorOf floor) ≤ high :=
      fun b member => bounds _ (List.mem_map_of_mem member)
    have below := @countP_replaced _ _ length (fun b => blockSample index b target (floorOf floor))
      (fun s => decide (low ≤ s)) fun b member => decide_eq_true (sample b member).1
    have above := @countP_replaced _ _ length (fun b => blockSample index b target (floorOf floor))
      (fun s => decide (s ≤ high)) fun b member => decide_eq_true (sample b member).2
    have all := List.length_eq_countP_add_countP (fun s : UInt64 => decide (s ≤ high))
      (l := blocks'.map fun b => blockSample index b target (floorOf floor))
    rw [List.length_map] at all
    simp only [Bool.not_eq_true, Bool.decide_eq_false] at all
    obtain ⟨lower, upper⟩ := @median_bounds
      (blocks'.map fun b => blockSample index b target (floorOf floor)) low high
      (by rw [List.length_map]; omega) (blockSample_small small.floorOf)
      (by rw [List.length_map]; omega) (by rw [List.length_map]; omega)
    have some : blocks' ≠ [] := by
      rw [← List.length_pos_iff]
      omega
    rw [estimate, if_neg some]
    exact ⟨clamp_mono _ lower, clamp_mono _ upper⟩
  · intro blocks target target' small le
    rw [estimate, estimate]
    split_ifs with none
    · exact UInt64.le_refl _
    · exact clamp_mono _ (median_mono (fun b _ => blockSample_mono monotone le b)
        (List.length_pos_iff.mpr none) (blockSample_small small.floorOf)
        (blockSample_small small.floorOf))

/-- The percentiles of the targets, in whole numbers. -/
def percentIndex (target : Int) (count : Nat) : Int :=
  let percent : Int := if target ≤ 1 then 80 else if target = 2 then 60 else
    if target ≤ 5 then 50 else 25
  percent * ((count - 1 : Nat) : Int) / 100

theorem percentIndex_mono (target target' : Int) (count : Nat) (le : target ≤ target') :
    percentIndex target' count ≤ percentIndex target count := by
  refine Int.ediv_le_ediv (by decide) (Int.mul_le_mul_of_nonneg_right ?_ (Int.natCast_nonneg _))
  split_ifs <;> omega

/-- A full block and two quiet ones. -/
def calmWindow : List BlockFees := [⟨[2000, 3000], 1⟩, ⟨[], 0⟩, ⟨[1000], 0⟩]

/-- One of the quiet blocks is stuffed. -/
def stuffedWindow : List BlockFees := [⟨[2000, 3000], 1⟩, ⟨[], 0⟩, ⟨[900000], 1⟩]

/-- Stuffed blocks move the estimate no further than the bound. -/
theorem stuffing_bounded :
    let samples := (untouched calmWindow stuffedWindow).map fun b =>
      blockSample percentIndex b 1 (floorOf 1000)
    ∃ low ∈ samples, ∃ high ∈ samples, (∀ s ∈ samples, low ≤ s ∧ s ≤ high) ∧
      clamp (floorOf 1000) low ≤ estimate percentIndex stuffedWindow 1 1000 ∧
      estimate percentIndex stuffedWindow 1 1000 ≤ clamp (floorOf 1000) high := by
  refine (estimate_spec percentIndex_mono 1000).1 calmWindow stuffedWindow 1 rfl (by decide) ?_
  refine ⟨?_, by decide⟩
  simp [stuffedWindow]

end Estimate

end Obscura.Fee
