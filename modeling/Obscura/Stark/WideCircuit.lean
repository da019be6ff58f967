import Mathlib.Algebra.Ring.Pi
import Mathlib.Tactic.LinearCombination
import Mathlib.Tactic.NormNum.Prime
import Mathlib.Tactic.Ring
import Obscura.Stark.WidePoseidon

/-! # Circuits of compression blocks

A trace of these circuits is a sequence of 31-row blocks. Thirty rows run the permutation, and
the last one folds the block's output with a sibling into the input of the next block. Four
columns carry the sum of the halves of a block's input, so that the last row can form the Jive
output. What the shared constraints say about a row is `BaseRow`; a run of such rows makes each
block output the compression of its input (`block_output`).
-/

namespace Obscura.Stark.Wide

/-- The arithmetic a constraint is written against, `cenv`. -/
structure Cenv (F T : Type) where
  add : T → T → T
  sub : T → T → T
  mul : T → T → T
  const : F → T

/-- A column that is bound to a value at a row. -/
structure Boundary (F : Type) where
  col : Nat
  row : Nat
  val : F

/-- An AIR circuit over the base field. -/
structure Circuit (F : Type) where
  cols : Nat
  periodic : Nat
  traceLen : Nat
  periodicCol : (j row : Nat) → F
  boundaries : List (Boundary F)
  constraints : (cur next per : Nat → F) → List F

/-- The cells of a trace, by column and row. -/
abbrev Trace (F : Type) := (col row : Nat) → F

/-- Every constraint of a row evaluates to zero. -/
def AllZero {F : Type} [Zero F] (values : List F) : Prop := ∀ value ∈ values, value = 0

/-- A trace satisfies the constraints on every row but the last, and the boundaries. -/
structure Satisfies {F : Type} [Zero F] (c : Circuit F) (trace : Trace F) : Prop where
  rows : ∀ row, row + 1 < c.traceLen → AllZero (c.constraints (fun col => trace col row)
    (fun col => trace col (row + 1)) (fun j => c.periodicCol j row))
  boundaries : ∀ b ∈ c.boundaries, trace b.col b.row = b.val

/-- The loop of `nextPow2`, which doubles at most `n` times. -/
def nextPow2Loop : Nat → Nat → Nat → Nat
  | 0, p, _ => p
  | rounds + 1, p, n => if p < n then nextPow2Loop rounds (p * 2) n else p

/-- The least power of two that is no smaller. -/
def nextPow2 (n : Nat) : Nat := nextPow2Loop n 1 n

/-- `merkleBlock`: the rounds of a permutation and the row that folds its output. -/
def merkleBlock : Nat := poseidonWideRounds + 1

theorem nextPow2Loop_spec (rounds k n : Nat) (enough : n ≤ 2 ^ k + rounds) :
    n ≤ nextPow2Loop rounds (2 ^ k) n ∧ ∃ j, nextPow2Loop rounds (2 ^ k) n = 2 ^ j := by
  induction rounds generalizing k with
  | zero => exact ⟨enough, k, rfl⟩
  | succ rounds ih =>
    rw [nextPow2Loop]
    by_cases less : 2 ^ k < n
    · have positive : 0 < 2 ^ k := Nat.two_pow_pos k
      rw [if_pos less, ← pow_succ]
      exact ih (k + 1) (by rw [pow_succ]; omega)
    · rw [if_neg less]
      exact ⟨Nat.le_of_not_lt less, k, rfl⟩

theorem lt_nextPow2 (blocks : Nat) :
    merkleBlock * blocks < nextPow2 (merkleBlock * blocks) := by
  obtain ⟨le, k, power⟩ :=
    nextPow2Loop_spec (merkleBlock * blocks) 0 (merkleBlock * blocks) (Nat.le_add_left _ _)
  refine lt_of_le_of_ne le fun same => ?_
  have divides : 31 ∣ 2 ^ k := ⟨blocks, (same.trans power).symm⟩
  have prime : Nat.Prime 31 := by norm_num
  have small := Nat.le_of_dvd (by norm_num) (prime.dvd_of_dvd_pow divides)
  omega

section Constraints

variable {F T : Type}

/-- `wideMerkleConstraints`. -/
def wideMerkleConstraints [Zero F] [One F] (e : Cenv F T) (tables : WideTables F)
    (cur next per curF nextF : Nat → T) (row0 : T) : List T :=
  let full := per 8
  let active := per 9
  let inject := per 10
  let one := e.const 1
  let sb := fun x =>
    let x2 := e.mul x x
    let x4 := e.mul x2 x2
    e.mul (e.mul x4 x2) x
  let t : Fin 8 → T := fun i => e.add (cur i) (per i)
  let s : Fin 8 → T := fun i =>
    if i = 0 then sb (t 0)
    else e.add (e.mul full (sb (t i))) (e.mul (e.sub one full) (t i))
  let mix : Fin 8 → T := fun i =>
    (List.finRange 8).foldl (fun acc j => e.add acc (e.mul (e.const (tables.mds i j)) (s j)))
      (e.const 0)
  let bit := cur 12
  (List.finRange 8).map (fun i : Fin 8 => e.mul active (e.sub (next i) (mix i))) ++
  (List.finRange 4).flatMap (fun i : Fin 4 =>
    let parent := e.add (curF i) (e.add (cur i) (cur (4 + i)))
    let sib := cur (8 + i)
    let in0 := e.add (e.mul (e.sub one bit) parent) (e.mul bit sib)
    let in1 := e.add (e.mul bit parent) (e.mul (e.sub one bit) sib)
    [e.mul inject (e.sub (next i) in0), e.mul inject (e.sub (next (4 + i)) in1)]) ++
  [e.mul inject (e.mul bit (e.sub bit one))] ++
  (List.finRange 4).flatMap (fun i : Fin 4 =>
    [e.mul active (e.sub (nextF i) (curF i)),
     e.mul inject (e.sub (nextF i) (e.add (next i) (next (4 + i)))),
     e.mul row0 (e.sub (curF i) (e.add (cur i) (cur (4 + i))))])

/-- `jiveReseed`. -/
def jiveReseed (e : Cenv F T) (next nextF : Nat → T) (sel : T) : List T :=
  (List.finRange 4).map fun i : Fin 4 => e.mul sel (e.sub (nextF i) (e.add (next i) (next (4 + i))))

/-- `jiveRootBind`. -/
def jiveRootBind (e : Cenv F T) (cur curF rootVal : Nat → T) (outSel : T) : List T :=
  (List.finRange 4).map fun i : Fin 4 =>
    e.mul outSel (e.sub (e.add (curF i) (e.add (cur i) (cur (4 + i)))) (rootVal i))

end Constraints

section Rows

variable {F : Type} [CommRing F]

/-- `feltEnv`. -/
def feltEnv : Cenv F F where
  add a b := a + b
  sub a b := a - b
  mul a b := a * b
  const c := c

/-- The periodic columns 0 to 10 of a circuit whose last block ends at `lastRow`: the rounds of
each block, and an injection at its end unless a reset takes its place. -/
def baseSchedule (tables : WideTables F) (lastRow : Nat) (isReset : Nat → Bool) (j row : Nat) : F :=
  if row < lastRow then
    let m := row % merkleBlock
    if m = merkleBlock - 1 then (if j = 10 ∧ isReset row = false then 1 else 0)
    else if column : j < 8 then tables.rc m ⟨j, column⟩
    else if j = 8 then (if wideFullRound m then 1 else 0)
    else if j = 9 then 1
    else 0
  else 0

/-! ## The cells of a row -/

/-- Columns 0 to 7: the permutation's state. -/
def stateAt (trace : Trace F) (row : Nat) : WideState F := fun i => trace i row

/-- Columns 8 to 11: the sibling. -/
def sibAt (trace : Trace F) (row : Nat) : Node256 F := fun i => trace (8 + i) row

/-- Columns 13 to 16: the carried fold of the block's input. -/
def foldAt (trace : Trace F) (row : Nat) : Node256 F := fun i => trace (13 + i) row

/-- The sum of the halves of a state. -/
def halves (x : WideState F) : Node256 F := fun i => low x i + high x i

/-- The Jive output formed at a row. -/
def jiveAt (trace : Trace F) (row : Nat) : Node256 F := fun i =>
  foldAt trace row i + (stateAt trace row ⟨i, low_lt i⟩ + stateAt trace row ⟨4 + i, high_lt i⟩)

/-- The next row holds the parent and its sibling in the order the bit says. -/
structure Injected (trace : Trace F) (row : Nat) (side : Bool) : Prop where
  bit : trace 12 row = if side then 1 else 0
  state : stateAt trace (row + 1) =
    if side then join (sibAt trace row) (jiveAt trace row)
    else join (jiveAt trace row) (sibAt trace row)
  fold : foldAt trace (row + 1) = halves (stateAt trace (row + 1))

/-- What the shared constraints say about a row. -/
structure BaseRow (tables : WideTables F) (lastRow : Nat) (isReset : Nat → Bool) (trace : Trace F)
    (row : Nat) : Prop where
  first : row = 0 → foldAt trace row = halves (stateAt trace row)
  round : row < lastRow → row % merkleBlock ≠ merkleBlock - 1 →
    stateAt trace (row + 1) = wideRoundStep tables (stateAt trace row) (row % merkleBlock) ∧
      foldAt trace (row + 1) = foldAt trace row
  inject : row < lastRow → row % merkleBlock = merkleBlock - 1 → isReset row = false →
    ∃ side, Injected trace row side

variable {tables : WideTables F}

theorem allZero_append {left right : List F} :
    AllZero (left ++ right) ↔ AllZero left ∧ AllZero right := List.forall_mem_append

theorem allZero_map {ι : Type} {positions : List ι} {f : ι → F} :
    AllZero (positions.map f) ↔ ∀ i ∈ positions, f i = 0 := List.forall_mem_map

theorem allZero_flatMap {n : Nat} {f : Fin n → List F} :
    AllZero ((List.finRange n).flatMap f) ↔ ∀ i, AllZero (f i) := by
  constructor
  case mp =>
    intro zero i value member
    exact zero value (List.mem_flatMap.mpr ⟨i, List.mem_finRange i, member⟩)
  case mpr =>
    intro zero value member
    obtain ⟨i, -, member⟩ := List.mem_flatMap.mp member
    exact zero i value member

theorem allZero_pairs {n : Nat} {f g : Fin n → F} :
    AllZero ((List.finRange n).flatMap fun i => [f i, g i]) ↔ ∀ i, f i = 0 ∧ g i = 0 :=
  allZero_flatMap.trans (forall_congr' fun i => by simp [AllZero])

theorem allZero_triples {n : Nat} {f g h : Fin n → F} :
    AllZero ((List.finRange n).flatMap fun i => [f i, g i, h i]) ↔
      ∀ i, f i = 0 ∧ g i = 0 ∧ h i = 0 :=
  allZero_flatMap.trans (forall_congr' fun i => by simp [AllZero])

theorem constraintMix_eq (x : WideState F) {r : Nat} {full : F}
    (selector : full = if wideFullRound r then 1 else 0) :
    wideMix tables (fun i => if i = 0 then sbox (x 0 + tables.rc r 0)
      else full * sbox (x i + tables.rc r i) + (1 - full) * (x i + tables.rc r i)) =
      wideRoundStep tables x r := by
  unfold wideRoundStep
  congr 1
  funext i
  by_cases first : i = 0
  · subst first
    simp only [↓reduceIte, or_true]
  · by_cases isFull : wideFullRound r = true
    · simp only [first, isFull, selector, ↓reduceIte, true_or]
      ring
    · simp only [first, isFull, selector, ↓reduceIte, or_self, Bool.false_eq_true]
      ring

theorem wideMerkleConstraints_iff (cur next : Nat → F) {per : Nat → F} {row0 : F} :
    AllZero (wideMerkleConstraints feltEnv tables cur next per (fun i => cur (13 + i))
      (fun i => next (13 + i)) row0) ↔
    (∀ i : Fin 8, per 9 * (next i - wideMix tables (fun i => if i = 0 then sbox (cur 0 + per 0)
      else per 8 * sbox (cur i + per i) + (1 - per 8) * (cur i + per i)) i) = 0) ∧
    (∀ i : Fin 4,
      per 10 * (next i - ((1 - cur 12) * (cur (13 + i) + (cur i + cur (4 + i))) +
        cur 12 * cur (8 + i))) = 0 ∧
      per 10 * (next (4 + i) - (cur 12 * (cur (13 + i) + (cur i + cur (4 + i))) +
        (1 - cur 12) * cur (8 + i))) = 0) ∧
    per 10 * (cur 12 * (cur 12 - 1)) = 0 ∧
    (∀ i : Fin 4, per 9 * (next (13 + i) - cur (13 + i)) = 0 ∧
      per 10 * (next (13 + i) - (next i + next (4 + i))) = 0 ∧
      row0 * (cur (13 + i) - (cur i + cur (4 + i))) = 0) := by
  unfold wideMerkleConstraints
  rw [allZero_append, allZero_append, allZero_append, allZero_map, allZero_pairs, allZero_triples]
  constructor
  case mp =>
    rintro ⟨⟨⟨rounds, sides⟩, bit⟩, folds⟩
    exact ⟨fun i => rounds i (List.mem_finRange i), sides, bit _ (List.mem_singleton_self _), folds⟩
  case mpr =>
    rintro ⟨rounds, sides, bit, folds⟩
    exact ⟨⟨⟨fun i _ => rounds i, sides⟩, List.forall_mem_singleton.mpr bit⟩, folds⟩

theorem gate_iff {p : Prop} [Decidable p] {x : F} : (if p then 1 else 0) * x = 0 ↔ (p → x = 0) := by
  by_cases on : p <;> simp [on]

theorem schedule_active {lastRow row : Nat} {isReset : Nat → Bool} :
    baseSchedule tables lastRow isReset 9 row =
      if row < lastRow ∧ row % merkleBlock ≠ merkleBlock - 1 then 1 else 0 := by
  unfold baseSchedule
  by_cases inside : row < lastRow <;> by_cases final : row % merkleBlock = merkleBlock - 1 <;>
    simp [inside, final]

theorem schedule_inject {lastRow row : Nat} {isReset : Nat → Bool} :
    baseSchedule tables lastRow isReset 10 row =
      if row < lastRow ∧ row % merkleBlock = merkleBlock - 1 ∧ isReset row = false then 1
      else 0 := by
  unfold baseSchedule
  by_cases inside : row < lastRow <;> by_cases final : row % merkleBlock = merkleBlock - 1 <;>
    simp [inside, final]

theorem schedule_full {lastRow row : Nat} {isReset : Nat → Bool} (inside : row < lastRow)
    (inner : row % merkleBlock ≠ merkleBlock - 1) :
    baseSchedule tables lastRow isReset 8 row =
      if wideFullRound (row % merkleBlock) then 1 else 0 := by
  simp [baseSchedule, inside, inner]

theorem schedule_constant {lastRow row : Nat} {isReset : Nat → Bool} (inside : row < lastRow)
    (inner : row % merkleBlock ≠ merkleBlock - 1) (i : Fin 8) :
    baseSchedule tables lastRow isReset i row = tables.rc (row % merkleBlock) i := by
  simp [baseSchedule, inside, inner]

/-- The injection constraints hold exactly when the row is injected on one side. -/
theorem injected_iff [IsDomain F] {trace : Trace F} {row : Nat} :
    (∃ side, Injected trace row side) ↔
      (∀ i : Fin 4,
        trace i (row + 1) - ((1 - trace 12 row) * jiveAt trace row i +
          trace 12 row * trace (8 + i) row) = 0 ∧
        trace (4 + i) (row + 1) - (trace 12 row * jiveAt trace row i +
          (1 - trace 12 row) * trace (8 + i) row) = 0) ∧
      trace 12 row * (trace 12 row - 1) = 0 ∧
      ∀ i : Fin 4, trace (13 + i) (row + 1) -
        (trace i (row + 1) + trace (4 + i) (row + 1)) = 0 := by
  constructor
  case mp =>
    rintro ⟨side, injected⟩
    have lows := congrArg low injected.state
    have highs := congrArg high injected.state
    refine ⟨?_, ?_, fun i => sub_eq_zero.mpr (congrFun injected.fold i)⟩
    · intro i
      have lowCell : trace i (row + 1) = _ := congrFun lows i
      have highCell : trace (4 + i) (row + 1) = _ := congrFun highs i
      rw [lowCell, highCell, injected.bit]
      cases side <;> simp [sibAt]
    · rw [injected.bit]
      cases side <;> simp
  case mpr =>
    rintro ⟨sides, bit, folds⟩
    have folded : foldAt trace (row + 1) = halves (stateAt trace (row + 1)) :=
      funext fun i => sub_eq_zero.mp (folds i)
    rcases mul_eq_zero.mp bit with zero | one
    · refine ⟨false, zero, state_ext (funext fun i => ?_) (funext fun i => ?_), folded⟩
      · have cell := sub_eq_zero.mp (sides i).1
        simp only [zero, sub_zero, one_mul, zero_mul, add_zero] at cell
        simp only [Bool.false_eq_true, ↓reduceIte, low_join]
        exact cell
      · have cell := sub_eq_zero.mp (sides i).2
        simp only [zero, sub_zero, one_mul, zero_mul, zero_add] at cell
        simp only [Bool.false_eq_true, ↓reduceIte, high_join]
        exact cell
    · have set : trace 12 row = 1 := sub_eq_zero.mp one
      refine ⟨true, set, state_ext (funext fun i => ?_) (funext fun i => ?_), folded⟩
      · have cell := sub_eq_zero.mp (sides i).1
        simp only [set, sub_self, one_mul, zero_mul, zero_add] at cell
        simp only [↓reduceIte, low_join]
        exact cell
      · have cell := sub_eq_zero.mp (sides i).2
        simp only [set, sub_self, one_mul, zero_mul, add_zero] at cell
        simp only [↓reduceIte, high_join]
        exact cell

/-- The shared constraints, on a row of the shared schedule, say that it is a `BaseRow`. -/
theorem baseRow_iff [IsDomain F] (tables : WideTables F) (lastRow : Nat) (isReset : Nat → Bool)
    (trace : Trace F) (row : Nat) (per : Nat → F) (row0 : F)
    (schedule : ∀ j < 11, per j = baseSchedule tables lastRow isReset j row)
    (first : row0 = if row = 0 then 1 else 0) :
    AllZero (wideMerkleConstraints feltEnv tables (fun col => trace col row)
      (fun col => trace col (row + 1)) per (fun i => trace (13 + i) row)
      (fun i => trace (13 + i) (row + 1)) row0) ↔
    BaseRow tables lastRow isReset trace row := by
  rw [wideMerkleConstraints_iff (fun col => trace col row)
    (fun col => trace col (row + 1)), schedule 9 (by norm_num), schedule 10 (by norm_num),
    schedule_active, schedule_inject, first]
  simp only [gate_iff]
  have mixed : row < lastRow → row % merkleBlock ≠ merkleBlock - 1 →
      wideMix tables (fun i : Fin 8 => if i = 0 then sbox (trace 0 row + per 0)
        else per 8 * sbox (trace i row + per i) + (1 - per 8) * (trace i row + per i)) =
        wideRoundStep tables (stateAt trace row) (row % merkleBlock) := by
    intro inside inner
    have constants : ∀ i : Fin 8, per i = tables.rc (row % merkleBlock) i := fun i =>
      (schedule i (by omega)).trans (schedule_constant inside inner i)
    have zeroth : per 0 = tables.rc (row % merkleBlock) 0 := constants 0
    rw [← constraintMix_eq (stateAt trace row)
      ((schedule 8 (by norm_num)).trans (schedule_full inside inner))]
    congr 1
    funext i
    rw [constants i, zeroth]
    rfl
  constructor
  case mp =>
    rintro ⟨rounds, sides, bit, folds⟩
    constructor
    case first => exact fun start => funext fun i => sub_eq_zero.mp ((folds i).2.2 start)
    case round =>
      intro inside inner
      refine ⟨funext fun i => ?_, funext fun i => sub_eq_zero.mp ((folds i).1 ⟨inside, inner⟩)⟩
      have cell := sub_eq_zero.mp (rounds i ⟨inside, inner⟩)
      rwa [mixed inside inner] at cell
    case inject =>
      intro inside final kept
      have on := And.intro inside (And.intro final kept)
      exact injected_iff.mpr ⟨fun i => ⟨(sides i).1 on, (sides i).2 on⟩, bit on,
        fun i => (folds i).2.1 on⟩
  case mpr =>
    intro base
    have injected := fun on : row < lastRow ∧ row % merkleBlock = merkleBlock - 1 ∧
      isReset row = false => injected_iff.mp (base.inject on.1 on.2.1 on.2.2)
    refine ⟨?_, ?_, fun on => (injected on).2.1, ?_⟩
    · intro i on
      rw [mixed on.1 on.2]
      exact sub_eq_zero.mpr (congrFun (base.round on.1 on.2).1 i)
    · exact fun i => ⟨fun on => ((injected on).1 i).1, fun on => ((injected on).1 i).2⟩
    · intro i
      exact ⟨fun on => sub_eq_zero.mpr (congrFun (base.round on.1 on.2).2 i),
        fun on => (injected on).2.2 i,
        fun start => sub_eq_zero.mpr (congrFun (base.first start) i)⟩

end Rows

section Selectors

variable {F : Type} [CommRing F]

/-- A column that is one where `p` holds. -/
def selector (p : Prop) [Decidable p] : F := if p then 1 else 0

theorem reseed_iff {trace : Trace F} {row : Nat} {p : Prop} [Decidable p] :
    AllZero (jiveReseed feltEnv (fun col => trace col (row + 1))
      (fun i => trace (13 + i) (row + 1)) (selector p)) ↔
      (p → foldAt trace (row + 1) = halves (stateAt trace (row + 1))) := by
  rw [jiveReseed, allZero_map]
  constructor
  case mp =>
    intro zero on
    exact funext fun i => sub_eq_zero.mp (gate_iff.mp (zero i (List.mem_finRange i)) on)
  case mpr =>
    intro seeded i _
    exact gate_iff.mpr fun on => sub_eq_zero.mpr (congrFun (seeded on) i)

theorem rootBind_iff (per : Nat → F) {trace : Trace F} {row : Nat} {p : Prop} [Decidable p]
    {value : Node256 F} (values : p → ∀ i : Fin 4, per (13 + i) = value i) :
    AllZero (jiveRootBind feltEnv (fun col => trace col row) (fun i => trace (13 + i) row)
      (fun i => per (13 + i)) (selector p)) ↔ (p → jiveAt trace row = value) := by
  rw [jiveRootBind, allZero_map]
  constructor
  case mp =>
    intro zero on
    funext i
    rw [← values on i]
    exact sub_eq_zero.mp (gate_iff.mp (zero i (List.mem_finRange i)) on)
  case mpr =>
    intro bound i _
    refine gate_iff.mpr fun on => sub_eq_zero.mpr ?_
    exact (congrFun (bound on) i).trans (values on i).symm

end Selectors

end Obscura.Stark.Wide
