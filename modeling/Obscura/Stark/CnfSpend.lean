import Obscura.Stark.NfSpend

/-! # The confidential spend circuit

A confidential spend opens a hidden note as a public spend does, and after the nullifier block a
second reset starts the sponge of an output note. The input amount is carried to the row where
the output note starts; there and at its own fold row both amounts are sums of bits, so that the
balance in the field is one of integers.
-/

namespace Obscura.Stark.Wide

open Numerals

section Circuit

variable {F : Type} [CommRing F] (tables : WideTables F)

/-- The permutations of a confidential spend. -/
def cnfBlocks (depth : Nat) : Nat := depth + 8

/-- The rows of the trace. -/
def cnfTraceLen (depth : Nat) : Nat := nextPow2 (merkleBlock * cnfBlocks depth)

/-- The row whose state takes the output note's inner hash. -/
def outInputRow (depth : Nat) : Nat := nfRow depth + 1

/-- The row of the output note. -/
def cmOutRow (depth : Nat) : Nat := merkleBlock * cnfBlocks depth - 1

theorem outInputRow_eq (depth : Nat) : outInputRow depth = merkleBlock * (depth + 5) := by
  rw [outInputRow, nfRow_eq]
  rfl

theorem cmOutRow_eq (depth : Nat) : cmOutRow depth = endRow (depth + 7) := rfl

theorem nfRow_lt_cmOutRow (depth : Nat) : nfRow depth < cmOutRow depth := by
  rw [nfRow_eq, cmOutRow_eq]
  exact endRow_lt (by omega)

theorem endRow_kept {depth b : Nat} (notRoot : b ≠ depth + 3) (notNf : b ≠ depth + 4) :
    (endRow b == rootRow depth || endRow b == nfRow depth) = false := by
  rw [rootRow_eq, nfRow_eq, Bool.or_eq_false_iff, beq_eq_false_iff_ne, beq_eq_false_iff_ne]
  exact ⟨endRow_ne notRoot, endRow_ne notNf⟩

/-- The confidential spend's `PeriodicCol`. -/
def cnfPeriodicCol (depth : Nat) (nf root cmOut : Node256 F) (j row : Nat) : F :=
  if j = 11 then selector (row = 0)
  else if j = 12 then selector (row = rootRow depth ∨ row = nfRow depth ∨ row = cmOutRow depth)
  else if limb : 13 ≤ j ∧ j ≤ 16 then
    if row = cmOutRow depth then cmOut ⟨j - 13, limb_lt limb⟩
    else if row = nfRow depth then nf ⟨j - 13, limb_lt limb⟩
    else if row = rootRow depth then root ⟨j - 13, limb_lt limb⟩
    else 0
  else if j = 17 then selector (row = 0)
  else if j = 18 then selector (row = merkleBlock - 1)
  else if j = 19 then selector (row = merkleBlock * 2 - 1)
  else if j = 20 then selector (row = rootRow depth)
  else if j = 21 then selector (row = nfRow depth)
  else if j = 22 then selector (row = outInputRow depth)
  else baseSchedule tables (cmOutRow depth)
    (fun row => row == rootRow depth || row == nfRow depth) j row

/-- The sum `Σ bitᵢ·2ⁱ` of `vbits` cells from `col` on, and the booleanity of each under `sel`. -/
def bitConstraints {T : Type} (e : Cenv F T) (vbits col : Nat) (sel : T) (cur : Nat → T) :
    List T × T :=
  let (out, sum, _) := (List.range vbits).foldl (fun (out, sum, pow) i =>
    let bc := cur (col + i)
    (out ++ [e.mul sel (e.mul bc (e.sub bc (e.const 1)))],
      e.add sum (e.mul (e.const pow) bc), pow * 2)) (([] : List T), e.const 0, (1 : F))
  (out, sum)

/-- The constraints of a confidential spend: those of the walk, the amounts' bits and the balance.
-/
def cnfSpendConstraints {T : Type} (e : Cenv F T) (vbits : Nat) (fee : F)
    (cur next per : Nat → T) : List T :=
  let (bitsIn, sumIn) := bitConstraints e vbits 20 (per 18) cur
  let (bitsOut, sumOut) := bitConstraints e vbits (20 + vbits) (per 22) cur
  wideMerkleConstraints e tables cur next per (fun i => cur (13 + i)) (fun i => next (13 + i))
    (per 11) ++
  jiveRootBind e cur (fun i => cur (13 + i)) (fun i => per (13 + i)) (per 12) ++
  jiveReseed e next (fun i => next (13 + i)) (per 20) ++
  jiveReseed e next (fun i => next (13 + i)) (per 21) ++
  [e.sub (next 17) (cur 17), e.sub (next 18) (cur 18), e.sub (next 19) (cur 19),
    e.mul (per 17) (e.sub (cur 17) (cur 0)), e.mul (per 19) (e.sub (cur 18) (cur 8)),
    e.mul (per 18) (e.sub (cur 19) (cur 8))] ++
  bitsIn ++ [e.mul (per 18) (e.sub (cur 8) sumIn)] ++
  [e.mul (per 20) (e.sub (next 0) (cur 17)), e.mul (per 20) (e.sub (next 4) (cur 18))] ++
  [1, 2, 3, 5, 6, 7].map (fun k => e.mul (per 20) (next k)) ++
  [5, 6, 7].map (fun k => e.mul (per 21) (next k)) ++
  bitsOut ++ [e.mul (per 22) (e.sub (cur 4) sumOut)] ++
  [e.mul (per 22) (e.sub (e.sub (cur 19) (cur 4)) (e.const fee))]

/-- The rows that fold a note's field. -/
def noteFolds (depth : Nat) : List Nat :=
  [merkleBlock - 1, merkleBlock * 2 - 1, merkleBlock * 3 - 1, merkleBlock * (depth + 6) - 1,
    merkleBlock * (depth + 7) - 1]

/-- The confidential spend of a nullifier, a root, an output note and a fee. -/
def cnfSpendCircuit (depth vbits : Nat) (nf root cmOut : Node256 F) (fee : F) : Circuit F where
  cols := 20 + 2 * vbits
  periodic := 23
  traceLen := cnfTraceLen depth
  periodicCol := cnfPeriodicCol tables depth nf root cmOut
  boundaries := zeroPins [1, 2, 3, 4, 5, 6, 7] 0 ++
    (noteFolds depth).flatMap (zeroPins [9, 10, 11, 12])
  constraints := cnfSpendConstraints tables feltEnv vbits fee

/-! ## The trace builder -/

/-- Row `i` of the confidential trace's loop. -/
def cnfSpendStep [DecidableEq F] (depth : Nat) (nk amount rho blind : F) (path : MerklePath256 F)
    (pkOut : Node256 F) (amountOut rhoOut blindOut : F) (trace : Trace F) (i : Nat) : Trace F :=
  let m := i % merkleBlock
  if i = rootRow depth then (trace.set 0 (i + 1) nk).set 4 (i + 1) rho
  else if i = nfRow depth then (trace.setNode 0 (i + 1) pkOut).set 4 (i + 1) amountOut
  else if m = merkleBlock - 1 then
    let b := i / merkleBlock
    if b = 0 then foldRow trace i (nodeOf amount) 0
    else if b = 1 then foldRow trace i (nodeOf rho) 0
    else if b = 2 then foldRow trace i (nodeOf blind) 0
    else if 3 ≤ b ∧ b ≤ depth + 2 then
      let lvl := b - 3
      foldRow trace i (path.siblings.getD lvl 0) (if path.index.testBit lvl then 1 else 0)
    else if b = depth + 5 then foldRow trace i (nodeOf rhoOut) 0
    else if b = depth + 6 then foldRow trace i (nodeOf blindOut) 0
    else trace
  else roundRow tables trace i m

/-- The loop that writes the low `vbits` bits of a word into a row, from column `col` on. -/
def Trace.setBits (trace : Trace F) (vbits col row word : Nat) : Trace F := fun col' row' =>
  if row' = row ∧ col ≤ col' ∧ col' < col + vbits then
    (if word.testBit (col' - col) then 1 else 0)
  else trace col' row'

/-- `cnfSpendTrace`, from the words `vi` and `vo` of the two amounts. -/
def cnfTraceOfWords [DecidableEq F] (vi vo : Nat) (nk amount rho blind : F)
    (path : MerklePath256 F) (depth : Nat) (pkOut : Node256 F) (amountOut rhoOut blindOut : F)
    (vbits : Nat) : Trace F :=
  let rows := runRows (cnfSpendStep tables depth nk amount rho blind path pkOut amountOut rhoOut
    blindOut) (spendInput nk) (cmOutRow depth)
  let carries := ((rows.carry 17 nk).carry 18 rho).carry 19 amount
  let bits := (carries.setBits vbits 20 (merkleBlock - 1) vi).setBits vbits (20 + vbits)
    (nfRow depth + 1) vo
  fillJiveFold bits (cnfBlocks depth) (cmOutRow depth) (cnfTraceLen depth)

end Circuit

variable {F : Type} [CommRing F] {tables : WideTables F}

/-! ## Bits -/

/-- `Σ cellᵢ·2ⁱ` over the first `n` cells. -/
def bitSum (cells : Nat → F) : Nat → F
  | 0 => 0
  | n + 1 => bitSum cells n + 2 ^ n * cells n

/-- A row's value as a sum of boolean cells from column `col` on. -/
structure BitSum (trace : Trace F) (row vbits col : Nat) (value : F) : Prop where
  boolean : ∀ i < vbits, trace (col + i) row * (trace (col + i) row - 1) = 0
  sum : value = bitSum (fun i => trace (col + i) row) vbits

theorem bitConstraints_eq (vbits col : Nat) (sel : F) (cur : Nat → F) :
    bitConstraints feltEnv vbits col sel cur =
      ((List.range vbits).map fun i => sel * (cur (col + i) * (cur (col + i) - 1)),
        bitSum (fun i => cur (col + i)) vbits) := by
  have loop : ∀ n, (List.range n).foldl (fun (state : List F × F × F) i =>
      let (out, sum, pow) := state
      let bc := cur (col + i)
      (out ++ [sel * (bc * (bc - 1))], sum + pow * bc, pow * 2)) ([], 0, 1) =
      ((List.range n).map fun i => sel * (cur (col + i) * (cur (col + i) - 1)),
        bitSum (fun i => cur (col + i)) n, 2 ^ n) := by
    intro n
    induction n with
    | zero => simp [bitSum]
    | succ n ih =>
      rw [List.range_succ, List.foldl_append, ih]
      simp [bitSum, pow_succ]
  have run := loop vbits
  unfold bitConstraints
  exact congrArg (fun state : List F × F × F => (state.1, state.2.1)) run

/-- The bits of a selected row. -/
theorem bits_iff {trace : Trace F} {row vbits col : Nat} {p : Prop} [Decidable p] {value : F} :
    AllZero ((List.range vbits).map fun i =>
        selector p * (trace (col + i) row * (trace (col + i) row - 1))) ∧
      selector p * (value - bitSum (fun i => trace (col + i) row) vbits) = 0 ↔
    (p → BitSum trace row vbits col value) := by
  rw [allZero_map]
  simp only [selector_iff, List.mem_range, sub_eq_zero]
  constructor
  case mp =>
    rintro ⟨boolean, sum⟩ on
    exact ⟨fun i less => boolean i less on, sum on⟩
  case mpr => exact fun bits => ⟨fun i less on => (bits on).boolean i less, fun on => (bits on).sum⟩

theorem bitSum_lt [IsDomain F] (cells : Nat → F) {n : Nat}
    (boolean : ∀ i < n, cells i * (cells i - 1) = 0) :
    ∃ value : Nat, value < 2 ^ n ∧ bitSum cells n = (value : F) := by
  induction n with
  | zero => exact ⟨0, by norm_num, by simp [bitSum]⟩
  | succ n ih =>
    obtain ⟨value, less, sum⟩ := ih fun i inside => boolean i (by omega)
    rcases mul_eq_zero.mp (boolean n (Nat.lt_succ_self n)) with zero | one
    · refine ⟨value, by rw [pow_succ]; omega, ?_⟩
      rw [bitSum, sum, zero, mul_zero, add_zero]
    · refine ⟨value + 2 ^ n, by rw [pow_succ]; omega, ?_⟩
      rw [bitSum, sum, sub_eq_zero.mp one, mul_one, Nat.cast_add, Nat.cast_pow, Nat.cast_two]

theorem bitSum_testBit (value n : Nat) :
    bitSum (fun i => if value.testBit i then (1 : F) else 0) n = ((value % 2 ^ n : Nat) : F) := by
  induction n with
  | zero => simp [bitSum, Nat.mod_one]
  | succ n ih =>
    have digit : value / 2 ^ n % 2 = if value.testBit n then 1 else 0 := by
      rw [Nat.testBit_eq_decide_div_mod_eq]
      by_cases one : value / 2 ^ n % 2 = 1
      · simp [one]
      · have zero : value / 2 ^ n % 2 = 0 := by omega
        simp [zero]
    rw [bitSum, ih, Nat.mod_pow_succ, digit, Nat.cast_add]
    cases value.testBit n <;> simp

/-! ## The rows -/

/-- What the constraints of a row say. -/
theorem cnfSpendConstraints_iff {vbits : Nat} {fee : F} {cur next per : Nat → F} :
    AllZero (cnfSpendConstraints tables feltEnv vbits fee cur next per) ↔
      AllZero (wideMerkleConstraints feltEnv tables cur next per (fun i => cur (13 + i))
        (fun i => next (13 + i)) (per 11)) ∧
      AllZero (jiveRootBind feltEnv cur (fun i => cur (13 + i)) (fun i => per (13 + i)) (per 12)) ∧
      AllZero (jiveReseed feltEnv next (fun i => next (13 + i)) (per 20)) ∧
      AllZero (jiveReseed feltEnv next (fun i => next (13 + i)) (per 21)) ∧
      AllZero [next 17 - cur 17, next 18 - cur 18, next 19 - cur 19, per 17 * (cur 17 - cur 0),
        per 19 * (cur 18 - cur 8), per 18 * (cur 19 - cur 8)] ∧
      AllZero ((List.range vbits).map fun i => per 18 * (cur (20 + i) * (cur (20 + i) - 1))) ∧
      per 18 * (cur 8 - bitSum (fun i => cur (20 + i)) vbits) = 0 ∧
      AllZero [per 20 * (next 0 - cur 17), per 20 * (next 4 - cur 18)] ∧
      AllZero ([1, 2, 3, 5, 6, 7].map fun k => per 20 * next k) ∧
      AllZero ([5, 6, 7].map fun k => per 21 * next k) ∧
      AllZero ((List.range vbits).map fun i =>
        per 22 * (cur (20 + vbits + i) * (cur (20 + vbits + i) - 1))) ∧
      per 22 * (cur 4 - bitSum (fun i => cur (20 + vbits + i)) vbits) = 0 ∧
      per 22 * (cur 19 - cur 4 - fee) = 0 := by
  have single : ∀ x : F, AllZero [x] ↔ x = 0 := fun x => List.forall_mem_singleton
  unfold cnfSpendConstraints
  rw [bitConstraints_eq, bitConstraints_eq]
  simp only [allZero_append, single, and_assoc]
  rfl

theorem zeros_iff {p : Prop} [Decidable p] {trace : Trace F} {row : Nat} {cols : List Nat} :
    AllZero (cols.map fun k => selector p * trace k row) ↔ (p → ∀ k ∈ cols, trace k row = 0) := by
  rw [allZero_map]
  simp only [selector_iff]
  exact ⟨fun zero on k member => zero k member on, fun zero k member on => zero on k member⟩

/-- What the rows of a confidential spend say beyond the shared constraints. -/
structure CnfRow (depth vbits : Nat) (nf root cmOut : Node256 F) (fee : F) (trace : Trace F)
    (row : Nat) : Prop where
  outputs : row = rootRow depth ∨ row = nfRow depth ∨ row = cmOutRow depth →
    jiveAt trace row =
      if row = cmOutRow depth then cmOut else if row = nfRow depth then nf else root
  reseedA : row = rootRow depth → foldAt trace (row + 1) = halves (stateAt trace (row + 1))
  reseedB : row = nfRow depth → foldAt trace (row + 1) = halves (stateAt trace (row + 1))
  nkCarried : trace 17 (row + 1) = trace 17 row
  rhoCarried : trace 18 (row + 1) = trace 18 row
  amountCarried : trace 19 (row + 1) = trace 19 row
  nkLinked : row = 0 → trace 17 row = trace 0 row
  rhoLinked : row = endRow 1 → trace 18 row = trace 8 row
  amountLinked : row = endRow 0 → trace 19 row = trace 8 row
  bitsIn : row = endRow 0 → BitSum trace row vbits 20 (trace 8 row)
  resetA : row = rootRow depth →
    stateAt trace (row + 1) = join (nodeOf (trace 17 row)) (nodeOf (trace 18 row))
  resetB : row = nfRow depth → ∀ k ∈ [5, 6, 7], trace k (row + 1) = 0
  bitsOut : row = outInputRow depth → BitSum trace row vbits (20 + vbits) (trace 4 row)
  balance : row = outInputRow depth → trace 19 row - trace 4 row = fee

/-- The confidential spend's constraints on a row. -/
theorem cnfSpend_row_iff [IsDomain F] {depth vbits : Nat} {nf root cmOut : Node256 F} {fee : F}
    {trace : Trace F} {row : Nat} :
    AllZero ((cnfSpendCircuit tables depth vbits nf root cmOut fee).constraints
      (fun col => trace col row) (fun col => trace col (row + 1))
      (fun j => (cnfSpendCircuit tables depth vbits nf root cmOut fee).periodicCol j row)) ↔
    BaseRow tables (cmOutRow depth) (fun row => row == rootRow depth || row == nfRow depth) trace
      row ∧ CnfRow depth vbits nf root cmOut fee trace row := by
  have base := baseRow_iff tables (cmOutRow depth)
    (fun row => row == rootRow depth || row == nfRow depth) trace row
    (fun j => cnfPeriodicCol tables depth nf root cmOut j row) (selector (row = 0)) (by
      intro j less
      dsimp only [cnfPeriodicCol]
      rw [if_neg (by omega), if_neg (by omega), dif_neg (by omega), if_neg (by omega),
        if_neg (by omega), if_neg (by omega), if_neg (by omega), if_neg (by omega),
        if_neg (by omega)]) rfl
  have bind : AllZero (jiveRootBind feltEnv (fun col => trace col row)
      (fun i => trace (13 + i) row)
      (fun i => cnfPeriodicCol tables depth nf root cmOut (13 + i) row)
      (selector (row = rootRow depth ∨ row = nfRow depth ∨ row = cmOutRow depth))) ↔
      (row = rootRow depth ∨ row = nfRow depth ∨ row = cmOutRow depth → jiveAt trace row =
        if row = cmOutRow depth then cmOut else if row = nfRow depth then nf else root) := by
    refine rootBind_iff (fun j => cnfPeriodicCol tables depth nf root cmOut j row) ?_
    intro here i
    have width := i.isLt
    have limb : (⟨13 + i.val - 13, by omega⟩ : Fin 4) = i := Fin.ext (by simp)
    dsimp only [cnfPeriodicCol]
    rw [if_neg (by omega), if_neg (by omega), dif_pos (by omega), limb]
    by_cases last : row = cmOutRow depth
    · rw [if_pos last, if_pos last]
    by_cases middle : row = nfRow depth
    · rw [if_neg last, if_neg last, if_pos middle, if_pos middle]
    · rw [if_neg last, if_neg last, if_neg middle, if_neg middle, if_pos (by tauto)]
  have links : AllZero [trace 17 (row + 1) - trace 17 row, trace 18 (row + 1) - trace 18 row,
      trace 19 (row + 1) - trace 19 row, selector (row = 0) * (trace 17 row - trace 0 row),
      selector (row = endRow 1) * (trace 18 row - trace 8 row),
      selector (row = endRow 0) * (trace 19 row - trace 8 row)] ↔
      trace 17 (row + 1) = trace 17 row ∧ trace 18 (row + 1) = trace 18 row ∧
      trace 19 (row + 1) = trace 19 row ∧ (row = 0 → trace 17 row = trace 0 row) ∧
      (row = endRow 1 → trace 18 row = trace 8 row) ∧
      (row = endRow 0 → trace 19 row = trace 8 row) := by
    simp only [AllZero, List.forall_mem_cons, List.not_mem_nil, false_implies, implies_true,
      and_true, selector_iff, sub_eq_zero]
  have seeds : AllZero [selector (row = rootRow depth) * (trace 0 (row + 1) - trace 17 row),
      selector (row = rootRow depth) * (trace 4 (row + 1) - trace 18 row)] ↔
      (row = rootRow depth → trace 0 (row + 1) = trace 17 row) ∧
      (row = rootRow depth → trace 4 (row + 1) = trace 18 row) := by
    simp only [AllZero, List.forall_mem_cons, List.not_mem_nil, false_implies, implies_true,
      and_true, selector_iff, sub_eq_zero]
  have single : ∀ x : F, AllZero [x] ↔ x = 0 := fun x => List.forall_mem_singleton
  have zerosA : AllZero ([1, 2, 3, 5, 6, 7].map fun k =>
      selector (row = rootRow depth) * trace k (row + 1)) ↔
      (row = rootRow depth → ∀ k ∈ [1, 2, 3, 5, 6, 7], trace k (row + 1) = 0) := zeros_iff
  have zerosB : AllZero ([5, 6, 7].map fun k =>
      selector (row = nfRow depth) * trace k (row + 1)) ↔
      (row = nfRow depth → ∀ k ∈ [5, 6, 7], trace k (row + 1) = 0) := zeros_iff
  have balance : selector (row = outInputRow depth) * (trace 19 row - trace 4 row - fee) = 0 ↔
      (row = outInputRow depth → trace 19 row - trace 4 row = fee) := by
    rw [selector_iff, sub_eq_zero]
  refine cnfSpendConstraints_iff.trans ?_
  constructor
  case mp =>
    rintro ⟨wide, bound, seededA, seededB, linked, bitsIn, sumIn, seeded, clearedA, clearedB,
      bitsOut, sumOut, balanced⟩
    obtain ⟨nkCarried, rhoCarried, amountCarried, nkLinked, rhoLinked, amountLinked⟩ :=
      links.mp linked
    exact ⟨base.mp wide, bind.mp bound, reseed_iff.mp seededA, reseed_iff.mp seededB, nkCarried,
      rhoCarried, amountCarried, nkLinked, rhoLinked, amountLinked, bits_iff.mp ⟨bitsIn, sumIn⟩,
      fun on => resetState_iff.mpr ⟨(seeds.mp seeded).1 on, (seeds.mp seeded).2 on,
        zerosA.mp clearedA on⟩,
      zerosB.mp clearedB, bits_iff.mp ⟨bitsOut, sumOut⟩, balance.mp balanced⟩
  case mpr =>
    rintro ⟨wide, spend⟩
    have reset := fun on => resetState_iff.mp (spend.resetA on)
    have bitsIn := bits_iff.mpr spend.bitsIn
    have bitsOut := bits_iff.mpr spend.bitsOut
    exact ⟨base.mpr wide, bind.mpr spend.outputs, reseed_iff.mpr spend.reseedA,
      reseed_iff.mpr spend.reseedB,
      links.mpr ⟨spend.nkCarried, spend.rhoCarried, spend.amountCarried, spend.nkLinked,
        spend.rhoLinked, spend.amountLinked⟩,
      bitsIn.1, bitsIn.2, seeds.mpr ⟨fun on => (reset on).1, fun on => (reset on).2.1⟩,
      zerosA.mpr fun on => (reset on).2.2, zerosB.mpr spend.resetB, bitsOut.1, bitsOut.2,
      balance.mpr spend.balance⟩

/-! ## Soundness -/

/-- A field element that is a number below `2 ^ vbits`. -/
def Fits (vbits : Nat) (a : F) : Prop := ∃ n : Nat, n < 2 ^ vbits ∧ a = (n : F)

theorem BitSum.fits [IsDomain F] {trace : Trace F} {row vbits col : Nat} {value : F}
    (bits : BitSum trace row vbits col value) : Fits vbits value := by
  obtain ⟨n, less, sum⟩ := bitSum_lt (fun i => trace (col + i) row) bits.boolean
  exact ⟨n, less, bits.sum.trans sum⟩

/-- What a confidential spend knows, with the balance in the field. -/
structure CnfOpening (tables : WideTables F) (depth vbits : Nat) (nf root cmOut : Node256 F)
    (fee : F) (nk amountIn rho blind : F) (path : MerklePath256 F) (pkOut : Node256 F)
    (amountOut rhoOut blindOut : F) : Prop where
  spend : NfSpendWitness tables depth amountIn nf root nk rho blind path
  output : cmOut = nfNoteFromPk tables pkOut amountOut rhoOut blindOut
  fitsIn : Fits vbits amountIn
  fitsOut : Fits vbits amountOut
  balance : amountIn - amountOut = fee

/-- **Soundness.** A satisfying trace shows an opening. -/
theorem cnfSpend_sound [IsDomain F] {depth vbits : Nat} {nf root cmOut : Node256 F} {fee : F}
    {trace : Trace F}
    (satisfied : Satisfies (cnfSpendCircuit tables depth vbits nf root cmOut fee) trace) :
    ∃ nk amountIn rho blind path pkOut amountOut rhoOut blindOut,
      CnfOpening tables depth vbits nf root cmOut fee nk amountIn rho blind path pkOut amountOut
        rhoOut blindOut := by
  have height : endRow (depth + 7) + 1 < cnfTraceLen depth := lt_nextPow2 (cnfBlocks depth)
  have rows := fun row (inside : row + 1 < cnfTraceLen depth) =>
    cnfSpend_row_iff.mp (satisfied.rows row inside)
  have within : ∀ row ≤ endRow (depth + 7), row + 1 < cnfTraceLen depth := fun row le =>
    lt_of_le_of_lt (Nat.succ_le_succ le) height
  have ended : ∀ b ≤ depth + 7, endRow b + 1 < cnfTraceLen depth := fun b le =>
    within _ (endRow_mono le)
  have nkConst : ∀ row < cnfTraceLen depth, trace 17 row = trace 0 0 := fun row less =>
    (carried_const (fun row inside => (rows row inside).2.nkCarried) less).trans
      ((rows 0 (within 0 (Nat.zero_le _))).2.nkLinked rfl)
  have rhoConst : ∀ row < cnfTraceLen depth, trace 18 row = trace 8 (endRow 1) := by
    intro row less
    have carried := fun row inside => (rows row inside).2.rhoCarried
    rw [carried_const carried less, ← (rows (endRow 1) (ended 1 (by omega))).2.rhoLinked rfl]
    exact (carried_const carried (Nat.lt_of_succ_lt (ended 1 (by omega)))).symm
  have amountConst : ∀ row < cnfTraceLen depth, trace 19 row = trace 8 (endRow 0) := by
    intro row less
    have carried := fun row inside => (rows row inside).2.amountCarried
    rw [carried_const carried less, ← (rows (endRow 0) (ended 0 (by omega))).2.amountLinked rfl]
    exact (carried_const carried (Nat.lt_of_succ_lt (ended 0 (by omega)))).symm
  have pin : ∀ b ∈ zeroPins [1, 2, 3, 4, 5, 6, 7] 0 ++
      [endRow 0, endRow 1, endRow 2, endRow (depth + 5), endRow (depth + 6)].flatMap
        (zeroPins [9, 10, 11, 12]), trace b.col b.row = b.val := satisfied.boundaries
  simp only [List.mem_append, List.mem_flatMap, mem_zeroPins] at pin
  have inputPins : ∀ col ∈ [1, 2, 3, 4, 5, 6, 7], trace col 0 = 0 := fun col member =>
    pin ⟨col, 0, 0⟩ (Or.inl ⟨col, member, rfl⟩)
  have foldPins : ∀ row ∈ [endRow 0, endRow 1, endRow 2, endRow (depth + 5), endRow (depth + 6)],
      ∀ col ∈ [9, 10, 11, 12], trace col row = 0 := fun row listed col member =>
    pin ⟨col, row, 0⟩ (Or.inr ⟨row, listed, col, member, rfl⟩)
  have base : ∀ b ≤ depth + 7, ∀ row < endRow b, BaseRow tables (cmOutRow depth)
      (fun row => row == rootRow depth || row == nfRow depth) trace row := fun b le row less =>
    (rows row (within row (less.le.trans (endRow_mono le)))).1
  have last : ∀ b ≤ depth + 7, endRow b ≤ cmOutRow depth := fun b le => endRow_mono le
  have rootEnd := (rows (endRow (depth + 3)) (ended _ (by omega))).2
  have nfEnd := (rows (endRow (depth + 4)) (ended _ (by omega))).2
  obtain ⟨path, run⟩ := SpendRun.read trace depth
    (fun row => row == rootRow depth || row == nfRow depth) (base _ (by omega))
    (last _ (by omega)) (fun b less => endRow_kept less.ne (by omega)) inputPins (by
      intro b less
      match b with
      | 0 => exact foldPins _ (by simp)
      | 1 => exact foldPins _ (by simp)
      | 2 => exact foldPins _ (by simp)) (by
      have seeded := rootEnd.resetA rfl
      rw [nkConst _ (Nat.lt_of_succ_lt (ended _ (by omega))),
        rhoConst _ (Nat.lt_of_succ_lt (ended _ (by omega)))] at seeded
      exact ⟨seeded, rootEnd.reseedA rfl⟩)
  have absorbed : ∀ b, b = depth + 5 ∨ b = depth + 6 →
      Absorbed trace (endRow b) (trace 8 (endRow b)) := by
    intro b which
    have before : endRow b < cmOutRow depth := by
      rw [cmOutRow_eq]
      exact endRow_lt (by omega)
    refine absorbed_of_pins ?_ ?_
    · exact (rows (endRow b) (ended _ (by omega))).1.inject before (endRow_mod b)
        (endRow_kept (by omega) (by omega))
    · rcases which with rfl | rfl
      · exact foldPins _ (by simp)
      · exact foldPins _ (by simp)
  have note : NoteRun trace (depth + 5) (low (stateAt trace (outInputRow depth)))
      (trace 4 (outInputRow depth)) (trace 8 (endRow (depth + 5)))
      (trace 8 (endRow (depth + 6))) := by
    have cleared := nfEnd.resetB rfl
    constructor
    case input =>
      have upper : high (stateAt trace (outInputRow depth)) =
          nodeOf (trace 4 (outInputRow depth)) :=
        nodeOf_cell (high (stateAt trace (outInputRow depth))) (cleared 5 (by simp))
          (cleared 6 (by simp)) (cleared 7 (by simp))
      rw [← outInputRow_eq, ← upper, join_low_high]
    case seeded => exact nfEnd.reseedB rfl
    case rhoFold => exact absorbed _ (Or.inl rfl)
    case blindFold => exact absorbed _ (Or.inr rfl)
  have outBefore : outInputRow depth ≤ endRow (depth + 7) := by
    rw [outInputRow_eq, endRow_eq, merkleBlock_eq]
    omega
  have outRow := (rows (outInputRow depth) (within _ outBefore)).2
  have cmEnd := (rows (endRow (depth + 7)) (ended _ le_rfl)).2
  refine ⟨trace 0 0, trace 8 (endRow 0), trace 8 (endRow 1), trace 8 (endRow 2), path,
    low (stateAt trace (outInputRow depth)), trace 4 (outInputRow depth),
    trace 8 (endRow (depth + 5)), trace 8 (endRow (depth + 6)), ?_⟩
  constructor
  case spend =>
    have rootOut := run.root_output (base _ (by omega)) (last _ (by omega))
    have nfOut := run.nullifier_output (base _ (by omega)) (last _ (by omega))
    have rootBound := rootEnd.outputs (Or.inl rfl)
    have nfBound := nfEnd.outputs (Or.inr (Or.inl rfl))
    rw [← rootRow_eq, if_neg ((rootRow_lt_nfRow depth).trans (nfRow_lt_cmOutRow depth)).ne,
      if_neg (rootRow_lt_nfRow depth).ne] at rootBound
    rw [← nfRow_eq, if_neg (nfRow_lt_cmOutRow depth).ne, if_pos rfl] at nfBound
    exact ⟨run.height, rootOut.symm.trans rootBound, nfBound.symm.trans nfOut⟩
  case output =>
    have noteOut := note.output (base _ le_rfl) le_rfl
    have bound := cmEnd.outputs (Or.inr (Or.inr rfl))
    rw [if_pos (cmOutRow_eq depth).symm] at bound
    exact bound.symm.trans noteOut
  case fitsIn => exact ((rows (endRow 0) (ended 0 (by omega))).2.bitsIn rfl).fits
  case fitsOut => exact (outRow.bitsOut rfl).fits
  case balance =>
    rw [← amountConst (outInputRow depth) (Nat.lt_of_succ_lt (within _ outBefore))]
    exact outRow.balance rfl

/-! ## The honest trace -/

/-- What the confidential loop folds in at the end of block `b`. -/
def cnfFold (depth : Nat) (amount rho blind : F) (path : MerklePath256 F) (rhoOut blindOut : F)
    (b : Nat) : Node256 F × Bool :=
  if b ≤ depth + 2 then spendFold amount rho blind path b
  else if b = depth + 5 then (nodeOf rhoOut, false)
  else (nodeOf blindOut, false)

section Honest

variable [DecidableEq F] {depth : Nat} {nk amount rho blind : F} {path : MerklePath256 F}
  {pkOut : Node256 F} {amountOut rhoOut blindOut : F}

theorem cnfSpendStep_ahead (depth : Nat) (nk amount rho blind : F) (path : MerklePath256 F)
    (pkOut : Node256 F) (amountOut rhoOut blindOut : F) :
    WritesAhead (cnfSpendStep tables depth nk amount rho blind path pkOut amountOut rhoOut
      blindOut) := by
  intro trace i col row ahead aux
  dsimp only [cnfSpendStep]
  split_ifs
  · rw [Trace.set, if_neg (by omega), Trace.set, if_neg (by omega)]
  · rw [Trace.set, if_neg (by omega), setNode_cell, dif_neg (by omega)]
  all_goals first | exact foldRow_frame ahead aux | exact roundRow_frame ahead | rfl

theorem cnfSpendStep_fold {i : Nat} (final : i % merkleBlock = merkleBlock - 1)
    (before : i < cmOutRow depth) (notRoot : i ≠ rootRow depth) (notNf : i ≠ nfRow depth)
    (rows : Trace F) :
    cnfSpendStep tables depth nk amount rho blind path pkOut amountOut rhoOut blindOut rows i =
      foldRow rows i (cnfFold depth amount rho blind path rhoOut blindOut (i / merkleBlock)).1
        (if (cnfFold depth amount rho blind path rhoOut blindOut (i / merkleBlock)).2 then 1
          else 0) := by
  have bound : i / merkleBlock ≤ depth + 6 ∧ i / merkleBlock ≠ depth + 3 ∧
      i / merkleBlock ≠ depth + 4 := by
    rw [cmOutRow_eq, endRow_eq] at before
    rw [rootRow_eq, endRow_eq] at notRoot
    rw [nfRow_eq, endRow_eq] at notNf
    rw [merkleBlock_eq] at final ⊢
    omega
  dsimp only [cnfSpendStep]
  rw [if_neg notRoot, if_neg notNf, if_pos final]
  generalize i / merkleBlock = b at bound ⊢
  by_cases note : b = 0 ∨ b = 1 ∨ b = 2
  · have low : b ≤ depth + 2 := by omega
    rcases note with rfl | rfl | rfl <;> simp [cnfFold, spendFold, low]
  rw [if_neg (by omega), if_neg (by omega), if_neg (by omega)]
  by_cases level : b ≤ depth + 2
  · have folded : cnfFold depth amount rho blind path rhoOut blindOut b =
        (path.siblings.getD (b - 3) 0, path.index.testBit (b - 3)) := by
      rw [cnfFold, if_pos level, spendFold, if_neg (by omega), if_neg (by omega),
        if_neg (by omega)]
    rw [if_pos ⟨by omega, level⟩, folded]
  rw [if_neg (by omega)]
  by_cases fifth : b = depth + 5
  · simp [cnfFold, fifth]
  · have sixth : b = depth + 6 := by omega
    simp [cnfFold, sixth]

/-- The honest trace is built step by step. -/
theorem cnfTrace_built (tables : WideTables F) (vi vo : Nat) (nk amount rho blind : F)
    (path : MerklePath256 F) (depth : Nat) (pkOut : Node256 F) (amountOut rhoOut blindOut : F)
    (vbits : Nat) :
    Built (cnfSpendStep tables depth nk amount rho blind path pkOut amountOut rhoOut blindOut)
      (spendInput nk) (cmOutRow depth)
      (cnfTraceOfWords tables vi vo nk amount rho blind path depth pkOut amountOut rhoOut blindOut
        vbits) := by
  have height : cmOutRow depth + 1 < cnfTraceLen depth := lt_nextPow2 (cnfBlocks depth)
  refine Built.of_fill (cnfSpendStep_ahead depth nk amount rho blind path pkOut amountOut rhoOut
    blindOut) ?_ ?_ (Nat.lt_of_succ_lt height)
  · intro col less row
    rw [Trace.setBits, if_neg (by omega), Trace.setBits, if_neg (by omega), Trace.carry,
      if_neg (by omega), Trace.carry, if_neg (by omega), Trace.carry, if_neg (by omega)]
  · exact Nat.lt_succ_self (cmOutRow depth)

/-- The columns a confidential trace adds to the loop's. -/
theorem cnfTrace_columns (tables : WideTables F) (vi vo : Nat) (nk amount rho blind : F)
    (path : MerklePath256 F) (depth : Nat) (pkOut : Node256 F) (amountOut rhoOut blindOut : F)
    (vbits : Nat) {trace : Trace F}
    (is : cnfTraceOfWords tables vi vo nk amount rho blind path depth pkOut amountOut rhoOut
      blindOut vbits = trace) :
    (∀ row, trace 17 row = nk ∧ trace 18 row = rho ∧ trace 19 row = amount) ∧
      ∀ i < vbits, trace (20 + i) (endRow 0) = (if vi.testBit i then 1 else 0) ∧
        trace (20 + vbits + i) (outInputRow depth) = (if vo.testBit i then 1 else 0) := by
  subst is
  have other : ∀ col row, 17 ≤ col → cnfTraceOfWords tables vi vo nk amount rho blind path depth
      pkOut amountOut rhoOut blindOut vbits col row = _ := fun col row le =>
    fillJiveFold_other (by omega)
  constructor
  · intro row
    refine ⟨?_, ?_, ?_⟩
    · rw [other _ _ (by omega), Trace.setBits, if_neg (by omega), Trace.setBits,
        if_neg (by omega), Trace.carry, if_neg (by omega), Trace.carry, if_neg (by omega),
        Trace.carry, if_pos rfl]
    · rw [other _ _ (by omega), Trace.setBits, if_neg (by omega), Trace.setBits,
        if_neg (by omega), Trace.carry, if_neg (by omega), Trace.carry, if_pos rfl]
    · rw [other _ _ (by omega), Trace.setBits, if_neg (by omega), Trace.setBits,
        if_neg (by omega), Trace.carry, if_pos rfl]
  · intro i less
    constructor
    · rw [other _ _ (by omega), Trace.setBits, if_neg (by omega), Trace.setBits,
        if_pos ⟨rfl, by omega, by omega⟩, Nat.add_sub_cancel_left]
    · rw [other _ _ (by omega), Trace.setBits, if_pos ⟨rfl, by omega, by omega⟩,
        Nat.add_sub_cancel_left]

omit [DecidableEq F] in
theorem bitSum_of_bits {trace : Trace F} {row vbits col word : Nat} {value : F}
    (small : word < 2 ^ vbits) (is : value = (word : F))
    (bits : ∀ i < vbits, trace (col + i) row = if word.testBit i then 1 else 0) :
    BitSum trace row vbits col value where
  boolean i less := by
    rw [bits i less]
    cases word.testBit i <;> simp
  sum := by
    have cells : ∀ n ≤ vbits, bitSum (fun i => trace (col + i) row) n =
        bitSum (fun i => if word.testBit i then (1 : F) else 0) n := by
      intro n le
      induction n with
      | zero => rfl
      | succ n ih => rw [bitSum, bitSum, ih (by omega), bits n (by omega)]
    rw [cells vbits le_rfl, bitSum_testBit, Nat.mod_eq_of_lt small, is]

/-- A witness's trace satisfies the confidential spend. -/
theorem cnfSpend_complete [IsDomain F] {vbits : Nat} {nf root cmOut : Node256 F} {fee : F}
    {vi vo : Nat} (opening : CnfOpening tables depth vbits nf root cmOut fee nk amount rho blind
      path pkOut amountOut rhoOut blindOut)
    (wordIn : vi < 2 ^ vbits ∧ amount = (vi : F))
    (wordOut : vo < 2 ^ vbits ∧ amountOut = (vo : F)) :
    Satisfies (cnfSpendCircuit tables depth vbits nf root cmOut fee)
      (cnfTraceOfWords tables vi vo nk amount rho blind path depth pkOut amountOut rhoOut blindOut
        vbits) := by
  have built := cnfTrace_built tables vi vo nk amount rho blind path depth pkOut
    amountOut rhoOut blindOut vbits
  obtain ⟨carried, bits⟩ := cnfTrace_columns tables vi vo nk amount rho blind path depth
    pkOut amountOut rhoOut blindOut vbits rfl
  generalize cnfTraceOfWords tables vi vo nk amount rho blind path depth pkOut amountOut rhoOut
    blindOut vbits = trace at built carried bits ⊢
  have base : ∀ row, BaseRow tables (cmOutRow depth)
      (fun row => row == rootRow depth || row == nfRow depth) trace row := by
    refine built.baseRow ?_ ?_
    · intro i _ inner
      have notRoot : i ≠ rootRow depth := by
        rintro rfl
        exact inner (endRow_mod (depth + 3))
      have notNf : i ≠ nfRow depth := by
        rintro rfl
        exact inner (endRow_mod (depth + 4))
      simp only [cnfSpendStep, notRoot, notNf, inner, ↓reduceIte]
    · intro i before final kept
      rw [Bool.or_eq_false_iff, beq_eq_false_iff_ne, beq_eq_false_iff_ne] at kept
      exact ⟨_, _, cnfSpendStep_fold final before kept.1 kept.2 _⟩
  have folds : ∀ b ≤ depth + 6, b ≠ depth + 3 → b ≠ depth + 4 → ∀ rows : Trace F,
      cnfSpendStep tables depth nk amount rho blind path pkOut amountOut rhoOut blindOut rows
        (endRow b) = foldRow rows (endRow b)
          (cnfFold depth amount rho blind path rhoOut blindOut b).1
          (if (cnfFold depth amount rho blind path rhoOut blindOut b).2 then 1 else 0) := by
    intro b le notRoot notNf rows
    have before : endRow b < cmOutRow depth := by
      rw [cmOutRow_eq]
      exact endRow_lt (by omega)
    refine (cnfSpendStep_fold (endRow_mod b) before (by rw [rootRow_eq]; exact endRow_ne notRoot)
      (by rw [nfRow_eq]; exact endRow_ne notNf) rows).trans ?_
    rw [endRow_div]
  have run : SpendRun trace depth nk amount rho blind path := by
    refine built.spendRun opening.spend.height ?_ ?_ ?_
    · exact (rootRow_lt_nfRow depth).trans (nfRow_lt_cmOutRow depth)
    · intro b less rows
      have same : cnfFold depth amount rho blind path rhoOut blindOut b =
          spendFold amount rho blind path b := if_pos (by omega)
      rw [folds b (by omega) (by omega) (by omega) rows, same]
    · intro rows
      simp only [cnfSpendStep, ↓reduceIte]
  have nfBefore := nfRow_lt_cmOutRow depth
  have absorbed : ∀ b, b = depth + 5 ∨ b = depth + 6 →
      Absorbed trace (endRow b) (if b = depth + 5 then rhoOut else blindOut) := by
    intro b which
    have before : endRow b < cmOutRow depth := by
      rw [cmOutRow_eq]
      exact endRow_lt (by omega)
    obtain ⟨injected, sib⟩ := built.injected before (endRow_mod b)
      (folds b (by omega) (by omega) (by omega) _)
    have folded : cnfFold depth amount rho blind path rhoOut blindOut b =
        (nodeOf (if b = depth + 5 then rhoOut else blindOut), false) := by
      rw [cnfFold, if_neg (by omega)]
      split_ifs <;> rfl
    rw [folded] at injected sib
    exact ⟨injected, sib⟩
  have outInput : stateAt trace (outInputRow depth) = join pkOut (nodeOf amountOut) := by
    have apart : nfRow depth ≠ rootRow depth := (rootRow_lt_nfRow depth).ne'
    rw [outInputRow, built.state_next nfBefore]
    simp only [cnfSpendStep, apart, ↓reduceIte]
    refine seededNote_state fun col less => ?_
    rw [built.ahead.row_ahead (Nat.lt_succ_self _)]
    exact if_neg (by omega)
  have outStart : outInputRow depth = merkleBlock * (outInputRow depth / merkleBlock) := by
    rw [outInputRow_eq, Nat.mul_div_cancel_left _ (by decide)]
  have note : NoteRun trace (depth + 5) pkOut amountOut rhoOut blindOut := by
    constructor
    case input => rw [← outInputRow_eq, outInput]
    case seeded =>
      have fold := built.folds (outInputRow depth) nfBefore
      rw [← outStart, outInputRow_eq] at fold
      exact fold
    case rhoFold =>
      have folded := absorbed (depth + 5) (Or.inl rfl)
      rw [if_pos rfl] at folded
      exact folded
    case blindFold =>
      have folded := absorbed (depth + 6) (Or.inr rfl)
      rw [if_neg (by omega)] at folded
      exact folded
  have outCell : ∀ i : Fin 4, trace (4 + i) (outInputRow depth) = nodeOf amountOut i := fun i => by
    rw [← high_join pkOut (nodeOf amountOut), ← outInput]
    rfl
  have rootOut := run.root_output (fun row _ => base row) (endRow_mono (by omega))
  have nfOut := run.nullifier_output (fun row _ => base row) (endRow_mono (by omega))
  have noteOut := note.output (fun row _ => base row) le_rfl
  have nkCol := fun row => (carried row).1
  have rhoCol := fun row => (carried row).2.1
  have amountCol := fun row => (carried row).2.2
  have amountOutCell : trace 4 (outInputRow depth) = amountOut := outCell 0
  constructor
  case rows =>
    intro row _
    refine cnfSpend_row_iff.mpr ⟨base row, ?_⟩
    constructor
    case outputs =>
      rintro (rfl | rfl | rfl)
      · rw [if_neg ((rootRow_lt_nfRow depth).trans nfBefore).ne,
          if_neg (rootRow_lt_nfRow depth).ne]
        exact rootOut.trans opening.spend.member
      · rw [if_neg nfBefore.ne, if_pos rfl, opening.spend.nullifier]
        exact nfOut
      · rw [if_pos rfl, opening.output]
        exact noteOut
    case reseedA =>
      rintro rfl
      exact run.reset.2
    case reseedB =>
      rintro rfl
      exact note.seeded
    case nkCarried => rw [nkCol, nkCol]
    case rhoCarried => rw [rhoCol, rhoCol]
    case amountCarried => rw [amountCol, amountCol]
    case nkLinked =>
      rintro rfl
      exact (nkCol 0).trans (congrFun run.input 0).symm
    case rhoLinked =>
      rintro rfl
      exact (rhoCol _).trans (congrFun run.rhoFold.sib 0).symm
    case amountLinked =>
      rintro rfl
      exact (amountCol _).trans (congrFun run.amountFold.sib 0).symm
    case bitsIn =>
      rintro rfl
      have cell : trace 8 (endRow 0) = amount := congrFun run.amountFold.sib 0
      rw [cell]
      exact bitSum_of_bits wordIn.1 wordIn.2 fun i less => (bits i less).1
    case resetA =>
      rintro rfl
      rw [nkCol, rhoCol]
      exact run.reset.1
    case resetB =>
      rintro rfl
      simp only [List.forall_mem_cons, List.not_mem_nil, false_implies, implies_true, and_true]
      exact ⟨outCell 1, outCell 2, outCell 3⟩
    case bitsOut =>
      rintro rfl
      rw [amountOutCell]
      exact bitSum_of_bits wordOut.1 wordOut.2 fun i less => (bits i less).2
    case balance =>
      rintro rfl
      rw [amountCol, amountOutCell]
      exact opening.balance
  case boundaries =>
    intro b listed
    simp only [cnfSpendCircuit, List.mem_append, List.mem_flatMap, mem_zeroPins] at listed
    rcases listed with ⟨col, pinned, rfl⟩ | ⟨row, which, col, pinned, rfl⟩
    · exact run.inputPins col pinned
    · simp only [noteFolds, List.mem_cons, List.not_mem_nil, or_false] at which
      rcases which with rfl | rfl | rfl | rfl | rfl
      · exact run.amountFold.pins col pinned
      · exact run.rhoFold.pins col pinned
      · exact run.blindFold.pins col pinned
      · exact note.rhoFold.pins col pinned
      · exact note.blindFold.pins col pinned

end Honest

/-! ## Exactness over the Goldilocks field -/

/-- `MaxRangeBits`. -/
def maxRangeBits : Nat := 60

/-- `cnfSpendTrace`. -/
def cnfSpendTrace (tables : WideTables Goldilocks) (nk amountIn rho blind : Goldilocks)
    (path : MerklePath256 Goldilocks) (depth : Nat) (pkOut : Node256 Goldilocks)
    (amountOut rhoOut blindOut : Goldilocks) (vbits : Nat) : Trace Goldilocks :=
  cnfTraceOfWords tables amountIn.uint64.toNat amountOut.uint64.toNat nk amountIn rho blind path
    depth pkOut amountOut rhoOut blindOut vbits

/-- What a confidential spend knows: a note under the root with its nullifier, an output note,
and amounts in range that balance as integers. -/
structure CnfSpendWitness (tables : WideTables Goldilocks) (depth vbits : Nat)
    (nf root cmOut : Node256 Goldilocks) (fee : UInt64) (nk amountIn rho blind : Goldilocks)
    (path : MerklePath256 Goldilocks) (pkOut : Node256 Goldilocks)
    (amountOut rhoOut blindOut : Goldilocks) : Prop where
  spend : NfSpendWitness tables depth amountIn nf root nk rho blind path
  output : cmOut = nfNoteFromPk tables pkOut amountOut rhoOut blindOut
  rangeIn : amountIn.uint64.toNat < 2 ^ vbits
  rangeOut : amountOut.uint64.toNat < 2 ^ vbits
  balance : amountIn.uint64.toNat = amountOut.uint64.toNat + fee.toNat

theorem pow_range {vbits : Nat} (range : vbits ≤ maxRangeBits) :
    2 ^ vbits + 2 ^ vbits < modulus := by
  have bound : 2 ^ vbits ≤ 2 ^ 60 := Nat.pow_le_pow_right (by norm_num) range
  unfold modulus
  omega

theorem fits_iff {vbits : Nat} (range : vbits ≤ maxRangeBits) {a : Goldilocks} :
    Fits vbits a ↔ a.uint64.toNat < 2 ^ vbits := by
  have wide := pow_range range
  constructor
  case mp =>
    rintro ⟨n, less, rfl⟩
    rwa [Goldilocks.uint64_natCast (by omega)]
  case mpr => exact fun less => ⟨a.uint64.toNat, less, a.natCast_uint64.symm⟩

theorem balance_iff {vbits : Nat} (range : vbits ≤ maxRangeBits) {amountIn amountOut : Goldilocks}
    {fee : UInt64} (fitsOut : amountOut.uint64.toNat < 2 ^ vbits)
    (fitsFee : fee.toNat < 2 ^ vbits) :
    amountIn - amountOut = Goldilocks.newFelt fee ↔
      amountIn.uint64.toNat = amountOut.uint64.toNat + fee.toNat := by
  have wide := pow_range range
  have word : (Goldilocks.newFelt fee).uint64.toNat = fee.toNat :=
    Goldilocks.uint64_newFelt (by omega)
  have sum : (amountOut + Goldilocks.newFelt fee).uint64.toNat =
      amountOut.uint64.toNat + fee.toNat := by
    rw [Goldilocks.uint64_add (by omega), word]
  rw [sub_eq_iff_eq_add', ← sum]
  exact ⟨congrArg fun a : Goldilocks => a.uint64.toNat, Goldilocks.uint64_injective⟩

/-- What an opening says over the field of the code. -/
theorem cnfOpening_iff {tables : WideTables Goldilocks} {depth vbits : Nat}
    {nf root cmOut : Node256 Goldilocks} {fee : UInt64} {nk amountIn rho blind : Goldilocks}
    {path : MerklePath256 Goldilocks} {pkOut : Node256 Goldilocks}
    {amountOut rhoOut blindOut : Goldilocks} (range : vbits ≤ maxRangeBits)
    (fitsFee : fee.toNat < 2 ^ vbits) :
    CnfOpening tables depth vbits nf root cmOut (Goldilocks.newFelt fee) nk amountIn rho blind path
        pkOut amountOut rhoOut blindOut ↔
      CnfSpendWitness tables depth vbits nf root cmOut fee nk amountIn rho blind path pkOut
        amountOut rhoOut blindOut := by
  constructor
  case mp =>
    rintro ⟨spend, output, fitsIn, fitsOut, balance⟩
    have rangeOut := (fits_iff range).mp fitsOut
    exact ⟨spend, output, (fits_iff range).mp fitsIn, rangeOut,
      (balance_iff range rangeOut fitsFee).mp balance⟩
  case mpr =>
    rintro ⟨spend, output, rangeIn, rangeOut, balance⟩
    exact ⟨spend, output, (fits_iff range).mpr rangeIn, (fits_iff range).mpr rangeOut,
      (balance_iff range rangeOut fitsFee).mpr balance⟩

/-- The confidential spend is satisfiable exactly by its witnesses, and the trace built from one
satisfies it. -/
theorem cnf_circuit_exact (tables : WideTables Goldilocks) (depth vbits : Nat)
    (nf root cmOut : Node256 Goldilocks) (fee : UInt64) (range : vbits ≤ maxRangeBits)
    (fitsFee : fee.toNat < 2 ^ vbits) :
    ((∃ trace, Satisfies
        (cnfSpendCircuit tables depth vbits nf root cmOut (Goldilocks.newFelt fee)) trace) ↔
      ∃ nk amountIn rho blind path pkOut amountOut rhoOut blindOut,
        CnfSpendWitness tables depth vbits nf root cmOut fee nk amountIn rho blind path pkOut
          amountOut rhoOut blindOut) ∧
    ∀ nk amountIn rho blind path pkOut amountOut rhoOut blindOut,
      CnfSpendWitness tables depth vbits nf root cmOut fee nk amountIn rho blind path pkOut
          amountOut rhoOut blindOut →
        Satisfies (cnfSpendCircuit tables depth vbits nf root cmOut (Goldilocks.newFelt fee))
          (cnfSpendTrace tables nk amountIn rho blind path depth pkOut amountOut rhoOut blindOut
            vbits) := by
  have honest : ∀ nk amountIn rho blind path pkOut amountOut rhoOut blindOut,
      CnfSpendWitness tables depth vbits nf root cmOut fee nk amountIn rho blind path pkOut
          amountOut rhoOut blindOut →
        Satisfies (cnfSpendCircuit tables depth vbits nf root cmOut (Goldilocks.newFelt fee))
          (cnfSpendTrace tables nk amountIn rho blind path depth pkOut amountOut rhoOut blindOut
            vbits) := by
    intro nk amountIn rho blind path pkOut amountOut rhoOut blindOut witness
    exact cnfSpend_complete ((cnfOpening_iff range fitsFee).mpr witness)
      ⟨witness.rangeIn, amountIn.natCast_uint64.symm⟩
      ⟨witness.rangeOut, amountOut.natCast_uint64.symm⟩
  refine ⟨?_, honest⟩
  constructor
  case mp =>
    rintro ⟨trace, satisfied⟩
    obtain ⟨nk, amountIn, rho, blind, path, pkOut, amountOut, rhoOut, blindOut, opening⟩ :=
      cnfSpend_sound satisfied
    exact ⟨nk, amountIn, rho, blind, path, pkOut, amountOut, rhoOut, blindOut,
      (cnfOpening_iff range fitsFee).mp opening⟩
  case mpr =>
    rintro ⟨nk, amountIn, rho, blind, path, pkOut, amountOut, rhoOut, blindOut, witness⟩
    exact ⟨_, honest nk amountIn rho blind path pkOut amountOut rhoOut blindOut witness⟩

/-- A note of five in a tree of two leaves is spent into one of three under a fee of two. -/
theorem cnf_circuit_exact_sample :
    Satisfies (cnfSpendCircuit sampleTables 1 3 (nfNullifier sampleTables 1 2) (sampleRoot 5)
        (nfNoteFromPk sampleTables (nfAddress sampleTables 7) 3 8 9) (Goldilocks.newFelt 2))
      (cnfSpendTrace sampleTables 1 5 2 4 samplePath 1 (nfAddress sampleTables 7) 3 8 9 3) :=
  (cnf_circuit_exact sampleTables 1 3 _ _ _ 2 (by decide) (by decide)).2 1 5 2 4 samplePath
    (nfAddress sampleTables 7) 3 8 9
    ⟨⟨rfl, rfl, rfl⟩, rfl, by
      rw [← Nat.cast_ofNat, Goldilocks.uint64_natCast (by decide)]
      decide, by
      rw [← Nat.cast_ofNat, Goldilocks.uint64_natCast (by decide)]
      decide, by
      rw [← Nat.cast_ofNat (n := 5), ← Nat.cast_ofNat (n := 3),
        Goldilocks.uint64_natCast (by decide), Goldilocks.uint64_natCast (by decide)]
      decide⟩

end Obscura.Stark.Wide
