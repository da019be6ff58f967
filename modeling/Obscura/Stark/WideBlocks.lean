import Obscura.Stark.WideCircuit

/-! # Blocks and honest traces

From the rows of a block to its output, and from an output through the injection to the next
one. The trace builders write the rows one after the other: row `i` writes the state of row
`i + 1` and its own sibling and bit, so that no later row touches what a row has read.
-/

namespace Obscura.Stark.Wide

variable {F : Type}

section Output

variable [CommRing F] {tables : WideTables F}

/-! ## The output of a block -/

/-- The last row of block `b`. -/
def endRow (b : Nat) : Nat := merkleBlock * b + poseidonWideRounds

theorem merkleBlock_eq : merkleBlock = 31 := rfl

theorem endRow_eq (b : Nat) : endRow b = 31 * b + 30 := rfl

theorem endRow_mod (b : Nat) : endRow b % merkleBlock = merkleBlock - 1 := by
  rw [endRow_eq, merkleBlock_eq]
  omega

theorem endRow_div (b : Nat) : endRow b / merkleBlock = b := by
  rw [endRow_eq, merkleBlock_eq]
  omega

theorem endRow_mono {b c : Nat} (le : b ≤ c) : endRow b ≤ endRow c := by
  rw [endRow_eq, endRow_eq]
  omega

theorem endRow_lt {b c : Nat} (less : b < c) : endRow b < endRow c := by
  rw [endRow_eq, endRow_eq]
  omega

theorem endRow_ne {b c : Nat} (other : b ≠ c) : endRow b ≠ endRow c := fun same =>
  other (by rw [← endRow_div b, same, endRow_div])

/-- What the last row of block `b` forms. -/
def outAt (trace : Trace F) (b : Nat) : Node256 F := jiveAt trace (endRow b)

theorem rounds_run {lastRow b : Nat} {isReset : Nat → Bool} {trace : Trace F}
    (base : ∀ row < endRow b, BaseRow tables lastRow isReset trace row)
    (inside : endRow b ≤ lastRow) {m : Nat} (inner : m ≤ poseidonWideRounds) :
    stateAt trace (merkleBlock * b + m) =
        (List.range m).foldl (wideRoundStep tables) (stateAt trace (merkleBlock * b)) ∧
      foldAt trace (merkleBlock * b + m) = foldAt trace (merkleBlock * b) := by
  induction m with
  | zero => exact ⟨rfl, rfl⟩
  | succ m ih =>
    obtain ⟨state, fold⟩ := ih (Nat.le_of_succ_le inner)
    have before : merkleBlock * b + m < endRow b := Nat.add_lt_add_left inner _
    have position : (merkleBlock * b + m) % merkleBlock = m := by
      have small : m < merkleBlock := Nat.lt_succ_of_lt inner
      rw [Nat.mul_add_mod, Nat.mod_eq_of_lt small]
    have row := (base _ before).round (before.trans_le inside) (by
      rw [position]
      exact Nat.ne_of_lt inner)
    rw [position, state] at row
    rw [List.range_succ, List.foldl_append]
    exact ⟨row.1, row.2.trans fold⟩

theorem block_output {lastRow b : Nat} {isReset : Nat → Bool} {trace : Trace F}
    (base : ∀ row < endRow b, BaseRow tables lastRow isReset trace row)
    (inside : endRow b ≤ lastRow)
    (seeded : foldAt trace (merkleBlock * b) = halves (stateAt trace (merkleBlock * b))) :
    outAt trace b = wideHash2 tables (low (stateAt trace (merkleBlock * b)))
      (high (stateAt trace (merkleBlock * b))) := by
  obtain ⟨state, fold⟩ := rounds_run base inside le_rfl
  have permuted : stateAt trace (endRow b) =
      poseidonWidePermute tables (stateAt trace (merkleBlock * b)) := state
  funext i
  have jive : outAt trace b i = foldAt trace (endRow b) i +
      (low (stateAt trace (endRow b)) i + high (stateAt trace (endRow b)) i) := rfl
  rw [jive, permuted, endRow, fold, seeded]
  simp only [wideHash2, jiveCompress, join_low_high, halves]
  ring

theorem injected_output {lastRow b : Nat} {isReset : Nat → Bool} {trace : Trace F} {side : Bool}
    (base : ∀ row < endRow (b + 1), BaseRow tables lastRow isReset trace row)
    (inside : endRow (b + 1) ≤ lastRow) (injected : Injected trace (endRow b) side) :
    outAt trace (b + 1) = parentOf tables (outAt trace b) (sibAt trace (endRow b)) side := by
  have next : endRow b + 1 = merkleBlock * (b + 1) := rfl
  have state := injected.state
  have fold := injected.fold
  rw [next] at state fold
  rw [block_output base inside fold, state]
  cases side <;> simp [parentOf, outAt]

end Output

/-! ## Building a trace -/

/-- Writes one cell. -/
def Trace.set (trace : Trace F) (col row : Nat) (value : F) : Trace F := fun col' row' =>
  if col' = col ∧ row' = row then value else trace col' row'

/-- Writes four cells of a row. -/
def Trace.setNode (trace : Trace F) (col row : Nat) (node : Node256 F) : Trace F :=
  fun col' row' =>
    if here : row' = row ∧ col ≤ col' ∧ col' < col + 4 then node ⟨col' - col, by omega⟩
    else trace col' row'

/-- Rows `0` to `n - 1` of a builder's loop. -/
def runRows (step : Trace F → Nat → Trace F) (init : Trace F) (n : Nat) : Trace F :=
  (List.range n).foldl step init

/-! ### The rows of a loop -/

theorem runRows_succ (step : Trace F → Nat → Trace F) (init : Trace F) (n : Nat) :
    runRows step init (n + 1) = step (runRows step init n) n := by
  rw [runRows, List.range_succ, List.foldl_append]
  rfl

/-- A builder's step writes the next row's state and its own row's sibling and bit. -/
def WritesAhead (step : Trace F → Nat → Trace F) : Prop :=
  ∀ trace i col row, ¬ (row = i + 1 ∧ col < 8) → ¬ (row = i ∧ 8 ≤ col ∧ col < 13) →
    step trace i col row = trace col row

variable {step : Trace F → Nat → Trace F} {init : Trace F}

theorem WritesAhead.state_kept (ahead : WritesAhead step) {i n row col : Nat} (passed : row ≤ i)
    (later : i ≤ n) (state : col < 8) :
    runRows step init n col row = runRows step init i col row := by
  induction n, later using Nat.le_induction with
  | base => rfl
  | succ n le ih =>
    rw [runRows_succ, ahead _ _ _ _ (by omega) (by omega), ih]

theorem WritesAhead.row_kept (ahead : WritesAhead step) {i n row col : Nat} (passed : row < i)
    (later : i ≤ n) : runRows step init n col row = runRows step init i col row := by
  induction n, later using Nat.le_induction with
  | base => rfl
  | succ n le ih =>
    rw [runRows_succ, ahead _ _ _ _ (by omega) (by omega), ih]

theorem WritesAhead.row_ahead (ahead : WritesAhead step) {i row col : Nat} (later : i < row) :
    runRows step init i col row = init col row := by
  induction i with
  | zero => rfl
  | succ i ih =>
    rw [runRows_succ, ahead _ _ _ _ (by omega) (by omega), ih (by omega)]

section Builder

variable [CommRing F]

/-- `jiveParentAt`. -/
def jiveParentAt (trace : Trace F) (i : Nat) : Node256 F := fun k =>
  let start := i - (merkleBlock - 1)
  trace k start + trace (4 + k) start + trace k i + trace (4 + k) i

/-- The trace builders' `fold`: the injection at row `i`. -/
def foldRow [DecidableEq F] (trace : Trace F) (i : Nat) (sib : Node256 F) (bit : F) : Trace F :=
  let parent := jiveParentAt trace i
  let trace := (trace.setNode 8 i sib).set 12 i bit
  let (in0, in1) := if bit = 0 then (parent, sib) else (sib, parent)
  (trace.setNode 0 (i + 1) in0).setNode 4 (i + 1) in1

/-- The round at row `i`. -/
def roundRow (tables : WideTables F) (trace : Trace F) (i r : Nat) : Trace F :=
  let st := wideRoundStep tables (stateAt trace i) r
  (trace.setNode 0 (i + 1) (low st)).setNode 4 (i + 1) (high st)

/-- `fillJiveFold`, on a trace of `len` rows. -/
def fillJiveFold (trace : Trace F) (blocks realRows len : Nat) : Trace F :=
  (List.range blocks).foldl (fun trace b =>
    let start := b * merkleBlock
    let fld := halves (stateAt trace start)
    let stop := min (start + merkleBlock) (realRows + 1)
    fun col row =>
      if here : 13 ≤ col ∧ col < 17 ∧ start ≤ row ∧ row < stop ∧ row < len then
        fld ⟨col - 13, by omega⟩
      else trace col row) trace

/-! ### What the writes leave -/

omit [CommRing F] in
theorem setNode_cell {trace : Trace F} {col row : Nat} {node : Node256 F} {col' row' : Nat} :
    trace.setNode col row node col' row' =
      if here : row' = row ∧ col ≤ col' ∧ col' < col + 4 then node ⟨col' - col, by omega⟩
      else trace col' row' := rfl

omit [CommRing F] in
theorem stateAt_setNodes (trace : Trace F) (row : Nat) (left right : Node256 F) :
    stateAt ((trace.setNode 0 row left).setNode 4 row right) row = join left right := by
  funext i
  have width := i.isLt
  by_cases inLeft : i.val < 4
  · simp [stateAt, setNode_cell, join, inLeft]
  · have inside : 4 ≤ i.val ∧ i.val < 8 := by omega
    simp [stateAt, setNode_cell, join, inLeft, inside]

theorem roundRow_state (tables : WideTables F) (trace : Trace F) (i r : Nat) :
    stateAt (roundRow tables trace i r) (i + 1) = wideRoundStep tables (stateAt trace i) r := by
  rw [roundRow, stateAt_setNodes, join_low_high]

omit [CommRing F] in
theorem setNodes_frame {trace : Trace F} {i col row : Nat} {left right : Node256 F}
    (untouched : ¬ (row = i + 1 ∧ col < 8)) :
    ((trace.setNode 0 (i + 1) left).setNode 4 (i + 1) right) col row = trace col row := by
  rw [setNode_cell, dif_neg (by omega), setNode_cell, dif_neg (by omega)]

theorem roundRow_frame {tables : WideTables F} {trace : Trace F} {i r col row : Nat}
    (untouched : ¬ (row = i + 1 ∧ col < 8)) : roundRow tables trace i r col row = trace col row :=
  setNodes_frame untouched

theorem foldRow_state [DecidableEq F] (trace : Trace F) (i : Nat) (sib : Node256 F) (bit : F) :
    stateAt (foldRow trace i sib bit) (i + 1) =
      if bit = 0 then join (jiveParentAt trace i) sib else join sib (jiveParentAt trace i) := by
  unfold foldRow
  by_cases zero : bit = 0
  · simp only [zero, ↓reduceIte, stateAt_setNodes]
  · simp only [zero, ↓reduceIte, stateAt_setNodes]

theorem foldRow_aux [DecidableEq F] {trace : Trace F} {i col row : Nat} {sib : Node256 F} {bit : F}
    (untouched : ¬ (row = i + 1 ∧ col < 8)) :
    foldRow trace i sib bit col row = ((trace.setNode 8 i sib).set 12 i bit) col row :=
  setNodes_frame untouched

theorem foldRow_frame [DecidableEq F] {trace : Trace F} {i col row : Nat} {sib : Node256 F}
    {bit : F}
    (ahead : ¬ (row = i + 1 ∧ col < 8)) (aux : ¬ (row = i ∧ 8 ≤ col ∧ col < 13)) :
    foldRow trace i sib bit col row = trace col row := by
  rw [foldRow_aux ahead, Trace.set, if_neg (by omega), setNode_cell, dif_neg (by omega)]

theorem foldRow_bit [DecidableEq F] (trace : Trace F) (i : Nat) (sib : Node256 F) (bit : F) :
    foldRow trace i sib bit 12 i = bit := by
  rw [foldRow_aux (by omega), Trace.set, if_pos ⟨rfl, rfl⟩]

theorem foldRow_sib [DecidableEq F] (trace : Trace F) (i : Nat) (sib : Node256 F) (bit : F) :
    sibAt (foldRow trace i sib bit) i = sib := by
  funext k
  have width := k.isLt
  rw [sibAt, foldRow_aux (by omega), Trace.set, if_neg (by omega), setNode_cell,
    dif_pos (by omega)]
  congr 1
  exact Fin.ext (by simp)

/-- One block more. -/
theorem fillJiveFold_succ (trace : Trace F) (blocks realRows len col row : Nat) :
    fillJiveFold trace (blocks + 1) realRows len col row =
      if here : 13 ≤ col ∧ col < 17 ∧ blocks * merkleBlock ≤ row ∧
          row < min (blocks * merkleBlock + merkleBlock) (realRows + 1) ∧ row < len then
        halves (stateAt (fillJiveFold trace blocks realRows len) (blocks * merkleBlock))
          ⟨col - 13, by omega⟩
      else fillJiveFold trace blocks realRows len col row := by
  rw [fillJiveFold, List.range_succ, List.foldl_append]
  rfl

theorem fillJiveFold_other {trace : Trace F} {blocks realRows len col row : Nat}
    (other : ¬ (13 ≤ col ∧ col < 17)) :
    fillJiveFold trace blocks realRows len col row = trace col row := by
  induction blocks with
  | zero => rfl
  | succ blocks ih => rw [fillJiveFold_succ, dif_neg (by omega), ih]

theorem fillJiveFold_fold {trace : Trace F} {blocks realRows len row : Nat}
    (inside : row < merkleBlock * blocks) (real : row ≤ realRows) (present : row < len) :
    foldAt (fillJiveFold trace blocks realRows len) row =
      halves (stateAt trace (merkleBlock * (row / merkleBlock))) := by
  induction blocks with
  | zero => exact absurd inside (Nat.not_lt_zero row)
  | succ blocks ih =>
    rw [merkleBlock_eq] at inside ih ⊢
    by_cases earlier : row < 31 * blocks
    · rw [← ih earlier]
      funext i
      rw [foldAt, fillJiveFold_succ, dif_neg (by rw [merkleBlock_eq]; omega)]
      rfl
    · have block : row / 31 = blocks := by omega
      funext i
      have width := i.isLt
      rw [foldAt, fillJiveFold_succ, dif_pos (by rw [merkleBlock_eq]; omega), block]
      have states : stateAt (fillJiveFold trace blocks realRows len) (blocks * merkleBlock) =
          stateAt trace (31 * blocks) := by
        funext k
        rw [stateAt, fillJiveFold_other (by omega), merkleBlock_eq, Nat.mul_comm]
        rfl
      rw [states]
      congr 1
      exact Fin.ext (by simp)

/-! ### The rows of a built trace -/

/-- A trace whose first 13 columns come from a builder's loop over `lastRow` rows and whose fold
columns were filled in. -/
structure Built (step : Trace F → Nat → Trace F) (init : Trace F) (lastRow : Nat)
    (trace : Trace F) : Prop where
  ahead : WritesAhead step
  cells : ∀ col < 13, ∀ row, trace col row = runRows step init lastRow col row
  folds : ∀ row ≤ lastRow, foldAt trace row =
    halves (stateAt trace (merkleBlock * (row / merkleBlock)))

variable {step : Trace F → Nat → Trace F} {init : Trace F} {lastRow : Nat} {trace : Trace F}

theorem Built.state_read (built : Built step init lastRow trace) {i row : Nat} (passed : row ≤ i)
    (inside : i ≤ lastRow) : stateAt (runRows step init i) row = stateAt trace row := by
  funext k
  rw [stateAt, stateAt, built.cells k (by omega), built.ahead.state_kept passed inside k.isLt]

theorem Built.state_first (built : Built step init lastRow trace) :
    stateAt trace 0 = stateAt init 0 :=
  (built.state_read le_rfl (Nat.zero_le lastRow)).symm

theorem Built.state_next (built : Built step init lastRow trace) {i : Nat} (inside : i < lastRow) :
    stateAt trace (i + 1) = stateAt (step (runRows step init i) i) (i + 1) := by
  rw [← runRows_succ step init i, built.state_read le_rfl inside]

theorem Built.cell_own (built : Built step init lastRow trace) {i col : Nat}
    (inside : i < lastRow) (aux : col < 13) :
    trace col i = step (runRows step init i) i col i := by
  rw [← runRows_succ step init i, built.cells col aux,
    built.ahead.row_kept (Nat.lt_succ_self i) inside]

theorem Built.round (built : Built step init lastRow trace) {tables : WideTables F} {i : Nat}
    (inside : i < lastRow) (inner : i % merkleBlock ≠ merkleBlock - 1)
    (is_round : step (runRows step init i) i =
      roundRow tables (runRows step init i) i (i % merkleBlock)) :
    stateAt trace (i + 1) = wideRoundStep tables (stateAt trace i) (i % merkleBlock) ∧
      foldAt trace (i + 1) = foldAt trace i := by
  have block : (i + 1) / merkleBlock = i / merkleBlock := by
    rw [merkleBlock_eq] at inner ⊢
    omega
  constructor
  · rw [built.state_next inside, is_round, roundRow_state, built.state_read le_rfl inside.le]
  · rw [built.folds (i + 1) inside, built.folds i inside.le, block]

/-- At the end of a block the fold and the sibling enter the next. -/
theorem Built.injected [DecidableEq F] [Nontrivial F] (built : Built step init lastRow trace)
    {i : Nat} {sib : Node256 F} {side : Bool} (inside : i < lastRow)
    (final : i % merkleBlock = merkleBlock - 1)
    (is_fold : step (runRows step init i) i =
      foldRow (runRows step init i) i sib (if side then 1 else 0)) :
    Injected trace i side ∧ sibAt trace i = sib := by
  have block : merkleBlock * ((i + 1) / merkleBlock) = i + 1 := by
    rw [merkleBlock_eq] at final ⊢
    omega
  have start : i - (merkleBlock - 1) = merkleBlock * (i / merkleBlock) := by
    rw [merkleBlock_eq] at final ⊢
    omega
  have sibling : sibAt trace i = sib := by
    rw [← foldRow_sib (runRows step init i) i sib (if side then 1 else 0), ← is_fold]
    funext k
    exact built.cell_own inside (by omega)
  have parent : jiveParentAt (runRows step init i) i = jiveAt trace i := by
    have reads := built.state_read le_rfl inside.le
    have start_reads := built.state_read (Nat.sub_le i (merkleBlock - 1)) inside.le
    have fold := built.folds i inside.le
    rw [← start, ← start_reads] at fold
    funext k
    change low (stateAt (runRows step init i) (i - (merkleBlock - 1))) k +
      high (stateAt (runRows step init i) (i - (merkleBlock - 1))) k +
      low (stateAt (runRows step init i) i) k + high (stateAt (runRows step init i) i) k =
      foldAt trace i k + (low (stateAt trace i) k + high (stateAt trace i) k)
    rw [congrFun fold k, reads, halves, add_assoc]
  refine ⟨⟨?_, ?_, ?_⟩, sibling⟩
  · rw [built.cell_own inside (by norm_num), is_fold, foldRow_bit]
  · rw [built.state_next inside, is_fold, foldRow_state, parent, sibling]
    cases side <;> simp
  · rw [built.folds (i + 1) inside, block]

theorem Built.of_fill {rows : Trace F} {blocks len : Nat} (ahead : WritesAhead step)
    (cells : ∀ col < 13, ∀ row, rows col row = runRows step init lastRow col row)
    (last : lastRow < merkleBlock * blocks) (present : lastRow < len) :
    Built step init lastRow (fillJiveFold rows blocks lastRow len) where
  ahead := ahead
  cells col less row := by rw [fillJiveFold_other (by omega), cells col less]
  folds row le := by
    rw [fillJiveFold_fold (le.trans_lt last) le (le.trans_lt present)]
    congr 1
    funext k
    rw [stateAt, stateAt, fillJiveFold_other (by omega)]

theorem Built.baseRow [DecidableEq F] [Nontrivial F] (built : Built step init lastRow trace)
    {tables : WideTables F} {isReset : Nat → Bool}
    (rounds : ∀ i < lastRow, i % merkleBlock ≠ merkleBlock - 1 →
      step (runRows step init i) i = roundRow tables (runRows step init i) i (i % merkleBlock))
    (injections : ∀ i < lastRow, i % merkleBlock = merkleBlock - 1 → isReset i = false →
      ∃ sib, ∃ side : Bool, step (runRows step init i) i =
        foldRow (runRows step init i) i sib (if side then 1 else 0)) (row : Nat) :
    BaseRow tables lastRow isReset trace row where
  first start := by
    subst start
    exact built.folds 0 (Nat.zero_le _)
  round inside inner := built.round inside inner (rounds row inside inner)
  inject inside final kept := by
    obtain ⟨sib, side, is_fold⟩ := injections row inside final kept
    exact ⟨side, (built.injected inside final is_fold).1⟩

end Builder

end Obscura.Stark.Wide
