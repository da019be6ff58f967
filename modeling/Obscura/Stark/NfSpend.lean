import Obscura.Stark.Extension
import Obscura.Stark.NfMint

/-! # The public-amount spend circuit

A spend opens a note of a public amount, walks its path to a public root and compresses the
public nullifier. The nullifier block is spliced in by a reset at the root row, which seeds it
from the two columns that carry the secrets `nk` and `rho` from the rows of the note.
-/

namespace Obscura.Stark.Wide

section Circuit

variable {F : Type} [CommRing F] (tables : WideTables F)

/-- The permutations before the path. -/
def nfPreBlocks : Nat := 4

/-- The permutations of a spend. -/
def nfSpendBlocks (depth : Nat) : Nat := depth + nfPreBlocks + 1

/-- The rows of the trace. -/
def nfSpendTraceLen (depth : Nat) : Nat := nextPow2 (merkleBlock * nfSpendBlocks depth)

/-- The row of the root. -/
def rootRow (depth : Nat) : Nat := merkleBlock * (depth + nfPreBlocks) - 1

/-- The row of the nullifier. -/
def nfRow (depth : Nat) : Nat := merkleBlock * nfSpendBlocks depth - 1

/-- The row where the nullifier's randomness is taken up. -/
def rhoRow : Nat := merkleBlock * 2 - 1

theorem rootRow_eq (depth : Nat) : rootRow depth = endRow (depth + 3) := rfl

theorem nfRow_eq (depth : Nat) : nfRow depth = endRow (depth + 4) := rfl

theorem rootRow_lt_nfRow (depth : Nat) : rootRow depth < nfRow depth := by
  rw [rootRow_eq, nfRow_eq]
  exact endRow_lt (Nat.lt_succ_self _)

/-- The spend's `PeriodicCol`. -/
def nfSpendPeriodicCol (depth : Nat) (nf root : Node256 F) (j row : Nat) : F :=
  if j = 11 then selector (row = 0)
  else if j = 12 then selector (row = rootRow depth ∨ row = nfRow depth)
  else if limb : 13 ≤ j ∧ j ≤ 16 then
    if row = nfRow depth then nf ⟨j - 13, limb_lt limb⟩
    else if row = rootRow depth then root ⟨j - 13, limb_lt limb⟩
    else 0
  else if j = 17 then selector (row = 0)
  else if j = 18 then selector (row = rhoRow)
  else if j = 19 then selector (row = rootRow depth)
  else baseSchedule tables (nfRow depth) (fun row => row == rootRow depth) j row

/-- The constraints of a spend: those of the walk, and the columns that carry the key and
randomness. -/
def nfSpendConstraints {T : Type} (e : Cenv F T) (cur next per : Nat → T) : List T :=
  wideMerkleConstraints e tables cur next per (fun i => cur (13 + i)) (fun i => next (13 + i))
    (per 11) ++
  jiveRootBind e cur (fun i => cur (13 + i)) (fun i => per (13 + i)) (per 12) ++
  jiveReseed e next (fun i => next (13 + i)) (per 19) ++
  [e.sub (next 17) (cur 17), e.sub (next 18) (cur 18),
    e.mul (per 17) (e.sub (cur 17) (cur 0)), e.mul (per 18) (e.sub (cur 18) (cur 8)),
    e.mul (per 19) (e.sub (next 0) (cur 17)), e.mul (per 19) (e.sub (next 4) (cur 18))] ++
  [1, 2, 3, 5, 6, 7].map fun k => e.mul (per 19) (next k)

/-- Boundaries that pin cells of a row to zero. -/
def zeroPins (cols : List Nat) (row : Nat) : List (Boundary F) :=
  cols.map fun col => ⟨col, row, 0⟩

/-- The spend of an amount under a nullifier and a root. -/
def nfSpendCircuit (depth : Nat) (amount : F) (nf root : Node256 F) : Circuit F where
  cols := 19
  periodic := 20
  traceLen := nfSpendTraceLen depth
  periodicCol := nfSpendPeriodicCol tables depth nf root
  boundaries :=
    zeroPins [1, 2, 3, 4, 5, 6, 7] 0 ++
    ⟨8, merkleBlock - 1, amount⟩ :: zeroPins [9, 10, 11, 12] (merkleBlock - 1) ++
    [merkleBlock * 2 - 1, merkleBlock * 3 - 1].flatMap (zeroPins [9, 10, 11, 12])
  constraints := nfSpendConstraints tables feltEnv

/-- Row `i` of the spend trace's loop. -/
def nfSpendStep [DecidableEq F] (depth : Nat) (nk amount rho blind : F) (path : MerklePath256 F)
    (trace : Trace F) (i : Nat) : Trace F :=
  let m := i % merkleBlock
  if i = rootRow depth then (trace.set 0 (i + 1) nk).set 4 (i + 1) rho
  else if m = merkleBlock - 1 then
    let b := i / merkleBlock
    if b = 0 then foldRow trace i (nodeOf amount) 0
    else if b = 1 then foldRow trace i (nodeOf rho) 0
    else if b = 2 then foldRow trace i (nodeOf blind) 0
    else
      let lvl := b - 3
      foldRow trace i (path.siblings.getD lvl 0) (if path.index.testBit lvl then 1 else 0)
  else roundRow tables trace i m

/-- A trace whose only cell is `nk`, in its first row. -/
def spendInput (nk : F) : Trace F := Trace.set (fun _ _ => 0) 0 0 nk

/-- The loop that fills a constant column. -/
def Trace.carry (trace : Trace F) (col : Nat) (value : F) : Trace F := fun col' row =>
  if col' = col then value else trace col' row

/-- The trace of an honest spend. -/
def nfSpendTrace [DecidableEq F] (nk amount rho blind : F) (path : MerklePath256 F)
    (depth : Nat) : Trace F :=
  let rows := runRows (nfSpendStep tables depth nk amount rho blind path) (spendInput nk)
    (nfRow depth)
  fillJiveFold ((rows.carry 17 nk).carry 18 rho) (nfSpendBlocks depth) (nfRow depth)
    (nfSpendTraceLen depth)

end Circuit

variable {F : Type} [CommRing F] {tables : WideTables F}

/-- What the rows of a spend say beyond the shared constraints. -/
structure NfSpendRow (depth : Nat) (nf root : Node256 F) (trace : Trace F) (row : Nat) : Prop where
  outputs : row = rootRow depth ∨ row = nfRow depth →
    jiveAt trace row = if row = nfRow depth then nf else root
  reseed : row = rootRow depth → foldAt trace (row + 1) = halves (stateAt trace (row + 1))
  nkCarried : trace 17 (row + 1) = trace 17 row
  rhoCarried : trace 18 (row + 1) = trace 18 row
  nkLinked : row = 0 → trace 17 row = trace 0 row
  rhoLinked : row = rhoRow → trace 18 row = trace 8 row
  reset : row = rootRow depth →
    stateAt trace (row + 1) = join (nodeOf (trace 17 row)) (nodeOf (trace 18 row))

/-- A state of two single-element nodes, cell by cell. -/
theorem resetState_iff {trace : Trace F} {row : Nat} {x y : F} :
    stateAt trace row = join (nodeOf x) (nodeOf y) ↔
      trace 0 row = x ∧ trace 4 row = y ∧ ∀ k ∈ [1, 2, 3, 5, 6, 7], trace k row = 0 := by
  constructor
  case mp =>
    intro state
    have lows : ∀ i : Fin 4, trace i row = nodeOf x i := fun i => by
      rw [← low_join (nodeOf x) (nodeOf y), ← state]
      rfl
    have highs : ∀ i : Fin 4, trace (4 + i) row = nodeOf y i := fun i => by
      rw [← high_join (nodeOf x) (nodeOf y), ← state]
      rfl
    refine ⟨lows 0, highs 0, ?_⟩
    simp only [List.forall_mem_cons, List.not_mem_nil, false_implies, implies_true, and_true]
    exact ⟨lows 1, lows 2, lows 3, highs 1, highs 2, highs 3⟩
  case mpr =>
    rintro ⟨rfl, rfl, zeros⟩
    refine state_ext ?_ ?_
    · rw [low_join]
      exact nodeOf_cell _ (zeros 1 (by simp)) (zeros 2 (by simp)) (zeros 3 (by simp))
    · rw [high_join]
      exact nodeOf_cell (high (stateAt trace row)) (zeros 5 (by simp)) (zeros 6 (by simp))
        (zeros 7 (by simp))

theorem selector_iff {p : Prop} [Decidable p] {x : F} : selector p * x = 0 ↔ (p → x = 0) :=
  gate_iff

/-- The spend's constraints on a row. -/
theorem nfSpend_row_iff [IsDomain F] {depth : Nat} {amount : F} {nf root : Node256 F}
    {trace : Trace F} {row : Nat} :
    AllZero ((nfSpendCircuit tables depth amount nf root).constraints (fun col => trace col row)
      (fun col => trace col (row + 1))
      (fun j => (nfSpendCircuit tables depth amount nf root).periodicCol j row)) ↔
    BaseRow tables (nfRow depth) (fun row => row == rootRow depth) trace row ∧
      NfSpendRow depth nf root trace row := by
  have base := baseRow_iff tables (nfRow depth) (fun row => row == rootRow depth) trace row
    (fun j => nfSpendPeriodicCol tables depth nf root j row) (selector (row = 0)) (by
      intro j less
      dsimp only [nfSpendPeriodicCol]
      rw [if_neg (by omega), if_neg (by omega), dif_neg (by omega), if_neg (by omega),
        if_neg (by omega), if_neg (by omega)]) rfl
  change AllZero (_ ++ _ ++ _ ++ _ ++ _) ↔ _
  rw [allZero_append, allZero_append, allZero_append, allZero_append]
  have bind : AllZero (jiveRootBind feltEnv (fun col => trace col row)
      (fun i => trace (13 + i) row)
      (fun i => nfSpendPeriodicCol tables depth nf root (13 + i) row)
      (selector (row = rootRow depth ∨ row = nfRow depth))) ↔
      (row = rootRow depth ∨ row = nfRow depth →
        jiveAt trace row = if row = nfRow depth then nf else root) := by
    refine rootBind_iff (fun j => nfSpendPeriodicCol tables depth nf root j row) ?_
    intro here i
    have width := i.isLt
    have limb : (⟨13 + i.val - 13, by omega⟩ : Fin 4) = i := Fin.ext (by simp)
    dsimp only [nfSpendPeriodicCol]
    rw [if_neg (by omega), if_neg (by omega), dif_pos (by omega), limb]
    by_cases last : row = nfRow depth
    · rw [if_pos last, if_pos last]
    · rw [if_neg last, if_neg last, if_pos (here.resolve_right last)]
  have links : AllZero [trace 17 (row + 1) - trace 17 row, trace 18 (row + 1) - trace 18 row,
      selector (row = 0) * (trace 17 row - trace 0 row),
      selector (row = rhoRow) * (trace 18 row - trace 8 row),
      selector (row = rootRow depth) * (trace 0 (row + 1) - trace 17 row),
      selector (row = rootRow depth) * (trace 4 (row + 1) - trace 18 row)] ↔
      trace 17 (row + 1) = trace 17 row ∧ trace 18 (row + 1) = trace 18 row ∧
      (row = 0 → trace 17 row = trace 0 row) ∧ (row = rhoRow → trace 18 row = trace 8 row) ∧
      (row = rootRow depth → trace 0 (row + 1) = trace 17 row) ∧
      (row = rootRow depth → trace 4 (row + 1) = trace 18 row) := by
    simp only [AllZero, List.forall_mem_cons, List.not_mem_nil, false_implies, implies_true,
      and_true, selector_iff, sub_eq_zero]
  have zeros : AllZero ([1, 2, 3, 5, 6, 7].map fun k =>
      selector (row = rootRow depth) * trace k (row + 1)) ↔
      (row = rootRow depth → ∀ k ∈ [1, 2, 3, 5, 6, 7], trace k (row + 1) = 0) := by
    rw [allZero_map]
    simp only [selector_iff]
    exact ⟨fun zero on k member => zero k member on, fun zero k member on => zero on k member⟩
  constructor
  case mp =>
    rintro ⟨⟨⟨⟨wide, bound⟩, seeded⟩, linked⟩, cleared⟩
    obtain ⟨nkCarried, rhoCarried, nkLinked, rhoLinked, first, fourth⟩ := links.mp linked
    exact ⟨base.mp wide, bind.mp bound, reseed_iff.mp seeded, nkCarried, rhoCarried, nkLinked,
      rhoLinked, fun on => resetState_iff.mpr ⟨first on, fourth on, zeros.mp cleared on⟩⟩
  case mpr =>
    rintro ⟨wide, spend⟩
    have reset := fun on => resetState_iff.mp (spend.reset on)
    exact ⟨⟨⟨⟨base.mpr wide, bind.mpr spend.outputs⟩, reseed_iff.mpr spend.reseed⟩,
      links.mpr ⟨spend.nkCarried, spend.rhoCarried, spend.nkLinked, spend.rhoLinked,
        fun on => (reset on).1, fun on => (reset on).2.1⟩⟩,
      zeros.mpr fun on => (reset on).2.2⟩

theorem mem_zeroPins {b : Boundary F} {cols : List Nat} {row : Nat} :
    b ∈ zeroPins cols row ↔ ∃ col ∈ cols, b = ⟨col, row, 0⟩ := by
  simp only [zeroPins, List.mem_map, eq_comm]

/-- **Soundness.** A satisfying trace shows a spend. -/
theorem nfSpend_sound [IsDomain F] {depth : Nat} {amount : F} {nf root : Node256 F}
    {trace : Trace F} (satisfied : Satisfies (nfSpendCircuit tables depth amount nf root) trace) :
    ∃ (nk rho blind : F) (path : MerklePath256 F), path.siblings.length = depth ∧
      verifyPath256 tables root (nfNoteFromPk tables (nfAddress tables nk) amount rho blind) path ∧
      nf = nfNullifier tables nk rho := by
  have height : endRow (depth + 4) + 1 < nfSpendTraceLen depth := lt_nextPow2 (nfSpendBlocks depth)
  have rows := fun row (inside : row + 1 < nfSpendTraceLen depth) =>
    nfSpend_row_iff.mp (satisfied.rows row inside)
  have within : ∀ row ≤ endRow (depth + 4), row + 1 < nfSpendTraceLen depth := fun row le =>
    lt_of_le_of_lt (Nat.succ_le_succ le) height
  have nkConst : ∀ row < nfSpendTraceLen depth, trace 17 row = trace 0 0 := fun row less =>
    (carried_const (fun row inside => (rows row inside).2.nkCarried) less).trans
      ((rows 0 (within 0 (Nat.zero_le _))).2.nkLinked rfl)
  have rhoBefore : endRow 1 ≤ endRow (depth + 4) := endRow_mono (by omega)
  have rhoConst : ∀ row < nfSpendTraceLen depth, trace 18 row = trace 8 (endRow 1) := by
    intro row less
    have carried := fun row inside => (rows row inside).2.rhoCarried
    rw [carried_const carried less, ← (rows (endRow 1) (within _ rhoBefore)).2.rhoLinked rfl]
    exact (carried_const carried (Nat.lt_of_succ_lt (within _ rhoBefore))).symm
  have pin : ∀ b ∈ zeroPins [1, 2, 3, 4, 5, 6, 7] 0 ++
      ⟨8, endRow 0, amount⟩ :: zeroPins [9, 10, 11, 12] (endRow 0) ++
      [endRow 1, endRow 2].flatMap (zeroPins [9, 10, 11, 12]), trace b.col b.row = b.val :=
    satisfied.boundaries
  simp only [List.mem_append, List.mem_cons, List.mem_flatMap, mem_zeroPins,
    List.not_mem_nil, or_false] at pin
  have rootBefore : endRow (depth + 3) < endRow (depth + 4) := endRow_lt (Nat.lt_succ_self _)
  have root_row := (rows (endRow (depth + 3)) (within _ rootBefore.le)).2
  obtain ⟨path, run⟩ := SpendRun.read trace depth (fun row => row == rootRow depth)
    (fun row less => (rows row (within row (less.trans rootBefore).le)).1) rootBefore.le
    (fun b less => beq_eq_false_iff_ne.mpr (by rw [rootRow_eq]; exact endRow_ne less.ne))
    (fun col member => pin ⟨col, 0, 0⟩ (Or.inl (Or.inl ⟨col, by simpa using member, rfl⟩)))
    (by
      intro b less col member
      have listed : col = 9 ∨ col = 10 ∨ col = 11 ∨ col = 12 := by simpa using member
      refine pin ⟨col, endRow b, 0⟩ ?_
      match b with
      | 0 => exact Or.inl (Or.inr (Or.inr ⟨col, listed, rfl⟩))
      | 1 => exact Or.inr ⟨endRow 1, Or.inl rfl, col, listed, rfl⟩
      | 2 => exact Or.inr ⟨endRow 2, Or.inr rfl, col, listed, rfl⟩)
    (by
      have seeded := root_row.reset rfl
      rw [nkConst _ (Nat.lt_of_succ_lt (within _ rootBefore.le)),
        rhoConst _ (Nat.lt_of_succ_lt (within _ rootBefore.le))] at seeded
      exact ⟨seeded, root_row.reseed rfl⟩)
  have base : ∀ row < endRow (depth + 4), BaseRow tables (nfRow depth)
      (fun row => row == rootRow depth) trace row := fun row less =>
    (rows row (within row less.le)).1
  have amountCell : trace 8 (endRow 0) = amount :=
    pin ⟨8, endRow 0, amount⟩ (Or.inl (Or.inr (Or.inl rfl)))
  refine ⟨trace 0 0, trace 8 (endRow 1), trace 8 (endRow 2), path, run.height, ?_, ?_⟩
  · have output := run.root_output base le_rfl
    have bound := root_row.outputs (Or.inl rfl)
    rw [if_neg (by rw [nfRow_eq]; exact rootBefore.ne)] at bound
    rw [amountCell] at output
    exact output.symm.trans bound
  · have output := run.nullifier_output base le_rfl
    have bound := (rows (endRow (depth + 4)) (within _ le_rfl)).2.outputs (Or.inr rfl)
    rw [if_pos (nfRow_eq depth).symm] at bound
    exact bound.symm.trans output

/-! ## The honest trace -/

/-- What the loop folds in at the end of block `b`: the sibling and its side. -/
def spendFold (amount rho blind : F) (path : MerklePath256 F) (b : Nat) : Node256 F × Bool :=
  if b = 0 then (nodeOf amount, false)
  else if b = 1 then (nodeOf rho, false)
  else if b = 2 then (nodeOf blind, false)
  else (path.siblings.getD (b - 3) 0, path.index.testBit (b - 3))

/-- The state of the first row. -/
theorem spendInput_state (nk : F) : stateAt (spendInput nk) 0 = join (nodeOf nk) 0 := by
  refine state_ext (funext fun i => ?_) (funext fun i => ?_)
  · rw [low_join]
    change spendInput nk i 0 = nodeOf nk i
    by_cases first : i = 0
    · subst first
      rfl
    · rw [spendInput, Trace.set, if_neg (by rw [Fin.ext_iff] at first; simpa using first), nodeOf,
        if_neg first]
  · rw [high_join]
    change spendInput nk (4 + i) 0 = 0
    rw [spendInput, Trace.set, if_neg (by omega)]

theorem seeded_state {trace : Trace F} {row : Nat} {x y : F}
    (blank : ∀ col < 8, trace col row = 0) :
    stateAt ((trace.set 0 row x).set 4 row y) row = join (nodeOf x) (nodeOf y) := by
  refine resetState_iff.mpr ⟨?_, ?_, ?_⟩
  · rw [Trace.set, if_neg (by omega), Trace.set, if_pos ⟨rfl, rfl⟩]
  · rw [Trace.set, if_pos ⟨rfl, rfl⟩]
  · intro k member
    have other : k ≠ 0 ∧ k ≠ 4 ∧ k < 8 := by
      simp only [List.mem_cons, List.not_mem_nil, or_false] at member
      omega
    rw [Trace.set, if_neg (by omega), Trace.set, if_neg (by omega), blank k other.2.2]

section Honest

variable [DecidableEq F] [Nontrivial F] {step : Trace F → Nat → Trace F} {depth lastRow : Nat}
  {nk amount rho blind : F} {path : MerklePath256 F} {trace : Trace F}

theorem Built.spendRun (built : Built step (spendInput nk) lastRow trace)
    (height : path.siblings.length = depth) (inside : rootRow depth < lastRow)
    (folds : ∀ b < depth + 3, ∀ rows : Trace F, step rows (endRow b) =
      foldRow rows (endRow b) (spendFold amount rho blind path b).1
        (if (spendFold amount rho blind path b).2 then 1 else 0))
    (resets : ∀ rows : Trace F, step rows (rootRow depth) =
      (rows.set 0 (rootRow depth + 1) nk).set 4 (rootRow depth + 1) rho) :
    SpendRun trace depth nk amount rho blind path := by
  have injected : ∀ b < depth + 3,
      Injected trace (endRow b) (spendFold amount rho blind path b).2 ∧
        sibAt trace (endRow b) = (spendFold amount rho blind path b).1 := by
    intro b less
    exact built.injected ((endRow_lt less).trans inside) (endRow_mod b) (folds b less _)
  have next : rootRow depth + 1 = merkleBlock * (depth + 4) := rfl
  constructor
  case input => rw [built.state_first, spendInput_state]
  case amountFold => exact ⟨(injected 0 (by omega)).1, (injected 0 (by omega)).2⟩
  case rhoFold => exact ⟨(injected 1 (by omega)).1, (injected 1 (by omega)).2⟩
  case blindFold => exact ⟨(injected 2 (by omega)).1, (injected 2 (by omega)).2⟩
  case height => exact height
  case levels =>
    intro k less
    obtain ⟨level, sib⟩ := injected (3 + k) (by omega)
    have here : spendFold amount rho blind path (3 + k) =
        (path.siblings[k], path.index.testBit k) := by
      rw [spendFold, if_neg (by omega), if_neg (by omega), if_neg (by omega),
        Nat.add_sub_cancel_left,
        List.getD_eq_getElem _ _ less]
    rw [here] at level sib
    exact ⟨level, sib⟩
  case reset =>
    rw [← next]
    constructor
    · rw [built.state_next inside, resets]
      refine seeded_state fun col state => ?_
      rw [built.ahead.row_ahead (Nat.lt_succ_self _), spendInput, Trace.set, if_neg (by omega)]
    · have start : merkleBlock * ((rootRow depth + 1) / merkleBlock) = rootRow depth + 1 := by
        rw [next, merkleBlock_eq]
        omega
      rw [built.folds _ inside, start]

end Honest

theorem nfSpendStep_ahead [DecidableEq F] (depth : Nat) (nk amount rho blind : F)
    (path : MerklePath256 F) :
    WritesAhead (nfSpendStep tables depth nk amount rho blind path) := by
  intro trace i col row ahead aux
  dsimp only [nfSpendStep]
  split_ifs
  · rw [Trace.set, if_neg (by omega), Trace.set, if_neg (by omega)]
  all_goals first | exact foldRow_frame ahead aux | exact roundRow_frame ahead

theorem nfSpendStep_fold [DecidableEq F] {depth : Nat} {nk amount rho blind : F}
    {path : MerklePath256 F} {i : Nat} (final : i % merkleBlock = merkleBlock - 1)
    (kept : i ≠ rootRow depth) (rows : Trace F) :
    nfSpendStep tables depth nk amount rho blind path rows i =
      foldRow rows i (spendFold amount rho blind path (i / merkleBlock)).1
        (if (spendFold amount rho blind path (i / merkleBlock)).2 then 1 else 0) := by
  dsimp only [nfSpendStep, spendFold]
  rw [if_neg kept, if_pos final]
  by_cases first : i / merkleBlock = 0
  · simp only [first, ↓reduceIte, Bool.false_eq_true]
  by_cases second : i / merkleBlock = 1
  · simp only [second, one_ne_zero, ↓reduceIte, Bool.false_eq_true]
  by_cases third : i / merkleBlock = 2
  · simp only [third, ↓reduceIte, Bool.false_eq_true, OfNat.ofNat_ne_zero, OfNat.ofNat_ne_one]
  simp only [first, second, third, ↓reduceIte]

theorem nfSpendTrace_built [DecidableEq F] (tables : WideTables F) (nk amount rho blind : F)
    (path : MerklePath256 F) (depth : Nat) :
    Built (nfSpendStep tables depth nk amount rho blind path) (spendInput nk) (nfRow depth)
      (nfSpendTrace tables nk amount rho blind path depth) := by
  have height : nfRow depth + 1 < nfSpendTraceLen depth := lt_nextPow2 (nfSpendBlocks depth)
  refine Built.of_fill (nfSpendStep_ahead depth nk amount rho blind path) ?_ ?_
    (Nat.lt_of_succ_lt height)
  · intro col less row
    rw [Trace.carry, if_neg (by omega), Trace.carry, if_neg (by omega)]
  · exact Nat.lt_succ_self (nfRow depth)

theorem nfSpendTrace_nk [DecidableEq F] (tables : WideTables F) (nk amount rho blind : F)
    (path : MerklePath256 F) (depth row : Nat) :
    nfSpendTrace tables nk amount rho blind path depth 17 row = nk := by
  rw [nfSpendTrace, fillJiveFold_other (by omega), Trace.carry, if_neg (by omega), Trace.carry,
    if_pos rfl]

theorem nfSpendTrace_rho [DecidableEq F] (tables : WideTables F) (nk amount rho blind : F)
    (path : MerklePath256 F) (depth row : Nat) :
    nfSpendTrace tables nk amount rho blind path depth 18 row = rho := by
  rw [nfSpendTrace, fillJiveFold_other (by omega), Trace.carry, if_pos rfl]

/-- A witness's trace satisfies the spend of its note. -/
theorem nfSpend_complete [DecidableEq F] [IsDomain F] {depth : Nat} {nk amount rho blind : F}
    {path : MerklePath256 F} {root : Node256 F} (height : path.siblings.length = depth)
    (member : verifyPath256 tables root
      (nfNoteFromPk tables (nfAddress tables nk) amount rho blind) path) :
    Satisfies (nfSpendCircuit tables depth amount (nfNullifier tables nk rho) root)
      (nfSpendTrace tables nk amount rho blind path depth) := by
  have built := nfSpendTrace_built tables nk amount rho blind path depth
  have nkCol := nfSpendTrace_nk tables nk amount rho blind path depth
  have rhoCol := nfSpendTrace_rho tables nk amount rho blind path depth
  generalize nfSpendTrace tables nk amount rho blind path depth = trace at built nkCol rhoCol ⊢
  have base : ∀ row, BaseRow tables (nfRow depth) (fun row => row == rootRow depth) trace row := by
    refine built.baseRow ?_ ?_
    · intro i _ inner
      have kept : i ≠ rootRow depth := by
        rintro rfl
        exact inner (endRow_mod (depth + 3))
      simp only [nfSpendStep, kept, inner, ↓reduceIte]
    · intro i _ final kept
      exact ⟨_, _, nfSpendStep_fold final (beq_eq_false_iff_ne.mp kept) _⟩
  have run : SpendRun trace depth nk amount rho blind path := by
    refine built.spendRun height ?_ ?_ ?_
    · exact rootRow_lt_nfRow depth
    · intro b less rows
      have kept : endRow b ≠ rootRow depth := by
        rw [rootRow_eq]
        exact endRow_ne less.ne
      refine (nfSpendStep_fold (endRow_mod b) kept rows).trans ?_
      rw [endRow_div]
    · intro rows
      simp only [nfSpendStep, ↓reduceIte]
  have rootOut := run.root_output (fun row _ => base row) le_rfl
  have nfOut := run.nullifier_output (fun row _ => base row) le_rfl
  constructor
  case rows =>
    intro row _
    refine nfSpend_row_iff.mpr ⟨base row, ?_⟩
    constructor
    case outputs =>
      rintro (rfl | rfl)
      · rw [if_neg (rootRow_lt_nfRow depth).ne]
        exact rootOut.trans member
      · rw [if_pos rfl]
        exact nfOut
    case reseed =>
      rintro rfl
      exact run.reset.2
    case nkCarried => rw [nkCol, nkCol]
    case rhoCarried => rw [rhoCol, rhoCol]
    case nkLinked =>
      rintro rfl
      exact (nkCol 0).trans (congrFun run.input 0).symm
    case rhoLinked =>
      rintro rfl
      exact (rhoCol _).trans (congrFun run.rhoFold.sib 0).symm
    case reset =>
      rintro rfl
      rw [nkCol, rhoCol]
      exact run.reset.1
  case boundaries =>
    intro b listed
    simp only [nfSpendCircuit, List.mem_append, List.mem_cons (a := b), List.mem_flatMap,
      mem_zeroPins] at listed
    rcases listed with (⟨col, pinned, rfl⟩ | rfl | ⟨col, pinned, rfl⟩) |
      ⟨row, which, col, pinned, rfl⟩
    · exact run.inputPins col pinned
    · exact congrFun run.amountFold.sib 0
    · exact run.amountFold.pins col pinned
    · simp only [List.mem_cons, List.not_mem_nil, or_false] at which
      rcases which with rfl | rfl
      · exact run.rhoFold.pins col pinned
      · exact run.blindFold.pins col pinned

/-! ## Exactness over the Goldilocks field -/

/-- What a spend of a public amount knows: the secrets of a note under the root whose nullifier
is `nf`. -/
structure NfSpendWitness (tables : WideTables F) (depth : Nat) (amount : F) (nf root : Node256 F)
    (nk rho blind : F) (path : MerklePath256 F) : Prop where
  height : path.siblings.length = depth
  member : verifyPath256 tables root (nfNoteFromPk tables (nfAddress tables nk) amount rho blind)
    path
  nullifier : nf = nfNullifier tables nk rho

/-- The spend and the mint of a public amount are satisfiable exactly by their witnesses, and
the traces built from these satisfy them. -/
theorem nf_circuits_exact (tables : WideTables Goldilocks) :
    (∀ depth amount nf root,
      (∃ trace, Satisfies (nfSpendCircuit tables depth amount nf root) trace) ↔
        ∃ nk rho blind path, NfSpendWitness tables depth amount nf root nk rho blind path) ∧
    (∀ amount cm, (∃ trace, Satisfies (nfMintCircuit tables amount cm) trace) ↔
      ∃ pk rho blind, cm = nfNoteFromPk tables pk amount rho blind) ∧
    (∀ depth amount nf root nk rho blind path,
      NfSpendWitness tables depth amount nf root nk rho blind path →
        Satisfies (nfSpendCircuit tables depth amount nf root)
          (nfSpendTrace tables nk amount rho blind path depth)) ∧
    ∀ pk amount rho blind cm, cm = nfNoteFromPk tables pk amount rho blind →
      Satisfies (nfMintCircuit tables amount cm) (nfMintTrace tables pk amount rho blind) := by
  have spends : ∀ depth amount nf root nk rho blind path,
      NfSpendWitness tables depth amount nf root nk rho blind path →
        Satisfies (nfSpendCircuit tables depth amount nf root)
          (nfSpendTrace tables nk amount rho blind path depth) := by
    intro depth amount nf root nk rho blind path witness
    rw [witness.nullifier]
    exact nfSpend_complete witness.height witness.member
  have mints : ∀ pk amount rho blind cm, cm = nfNoteFromPk tables pk amount rho blind →
      Satisfies (nfMintCircuit tables amount cm) (nfMintTrace tables pk amount rho blind) := by
    intro pk amount rho blind cm commitment
    rw [commitment]
    exact nfMint_complete pk amount rho blind
  refine ⟨?_, ?_, spends, mints⟩
  · intro depth amount nf root
    constructor
    case mp =>
      rintro ⟨trace, satisfied⟩
      obtain ⟨nk, rho, blind, path, height, member, nullifier⟩ := nfSpend_sound satisfied
      exact ⟨nk, rho, blind, path, height, member, nullifier⟩
    case mpr =>
      rintro ⟨nk, rho, blind, path, witness⟩
      exact ⟨_, spends depth amount nf root nk rho blind path witness⟩
  · intro amount cm
    constructor
    case mp =>
      rintro ⟨trace, satisfied⟩
      exact nfMint_sound satisfied
    case mpr =>
      rintro ⟨pk, rho, blind, commitment⟩
      exact ⟨_, mints pk amount rho blind cm commitment⟩

/-- Tables to evaluate with. -/
def sampleTables : WideTables Goldilocks :=
  ⟨fun round i => ((8 * round + i.val + 1 : Nat) : Goldilocks),
    fun i j => ((8 * i.val + j.val + 1 : Nat) : Goldilocks)⟩

/-- A leaf on the right of its sibling. -/
def samplePath : MerklePath256 Goldilocks := ⟨1, [fun i => (i.val : Goldilocks)]⟩

/-- The note of the key 1 with an amount. -/
def sampleNote (amount : Goldilocks) : Node256 Goldilocks :=
  nfNoteFromPk sampleTables (nfAddress sampleTables 1) amount 2 4

/-- The root over the note and its sibling. -/
def sampleRoot (amount : Goldilocks) : Node256 Goldilocks :=
  climbPath sampleTables (sampleNote amount) samplePath.index samplePath.siblings

/-- A note of five in a tree of two leaves is spent. -/
theorem nf_circuits_exact_sample :
    Satisfies (nfSpendCircuit sampleTables 1 5 (nfNullifier sampleTables 1 2) (sampleRoot 5))
      (nfSpendTrace sampleTables 1 5 2 4 samplePath 1) :=
  (nf_circuits_exact sampleTables).2.2.1 1 5 _ _ 1 2 4 samplePath ⟨rfl, rfl, rfl⟩

end Obscura.Stark.Wide
