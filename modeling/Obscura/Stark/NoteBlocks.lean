import Obscura.Stark.WideBlocks

/-! # Notes in a trace

A note is a sponge of three compressions over an address, an amount and two nonces; a spend
opens one, walks its Merkle path to the root and compresses the nullifier from the same secrets.
Here are the rows of a trace that do so, and what their blocks output.
-/

namespace Obscura.Stark.Wide

section Notes

variable {F : Type} [CommRing F] (tables : WideTables F)

/-- `NfAddress`. -/
def nfAddress (nk : F) : Node256 F := wideHash2 tables (nodeOf nk) 0

/-- `NfNoteFromPk`. -/
def nfNoteFromPk (pk : Node256 F) (amount rho blind : F) : Node256 F :=
  let h1 := wideHash2 tables pk (nodeOf amount)
  let h2 := wideHash2 tables h1 (nodeOf rho)
  wideHash2 tables h2 (nodeOf blind)

/-- `NfNullifier`. -/
def nfNullifier (nk rho : F) : Node256 F := wideHash2 tables (nodeOf nk) (nodeOf rho)

end Notes

variable {F : Type} [CommRing F] {tables : WideTables F}

/-- An injection of one field element, on the right. -/
structure Absorbed (trace : Trace F) (row : Nat) (field : F) : Prop where
  injected : Injected trace row false
  sib : sibAt trace row = nodeOf field

/-- Blocks `b` to `b + 2` run a note's sponge. -/
structure NoteRun (trace : Trace F) (b : Nat) (pk : Node256 F) (amount rho blind : F) : Prop where
  input : stateAt trace (merkleBlock * b) = join pk (nodeOf amount)
  seeded : foldAt trace (merkleBlock * b) = halves (stateAt trace (merkleBlock * b))
  rhoFold : Absorbed trace (endRow b) rho
  blindFold : Absorbed trace (endRow (b + 1)) blind

theorem Absorbed.pins {trace : Trace F} {row : Nat} {field : F}
    (absorbed : Absorbed trace row field) : ∀ col ∈ [9, 10, 11, 12], trace col row = 0 := by
  have upper : ∀ i : Fin 4, i ≠ 0 → trace (8 + i) row = 0 := fun i other =>
    (congrFun absorbed.sib i).trans (if_neg other)
  simp only [List.forall_mem_cons, List.not_mem_nil, false_implies, implies_true, and_true]
  exact ⟨upper 1 (by decide), upper 2 (by decide), upper 3 (by decide), absorbed.injected.bit⟩

theorem Absorbed.output {lastRow b : Nat} {isReset : Nat → Bool} {trace : Trace F} {field : F}
    (absorbed : Absorbed trace (endRow b) field)
    (base : ∀ row < endRow (b + 1), BaseRow tables lastRow isReset trace row)
    (inside : endRow (b + 1) ≤ lastRow) :
    outAt trace (b + 1) = wideHash2 tables (outAt trace b) (nodeOf field) := by
  rw [injected_output base inside absorbed.injected, absorbed.sib]
  rfl

/-- Three blocks compute a note. -/
theorem NoteRun.output {lastRow b : Nat} {isReset : Nat → Bool} {trace : Trace F}
    {pk : Node256 F} {amount rho blind : F} (run : NoteRun trace b pk amount rho blind)
    (base : ∀ row < endRow (b + 2), BaseRow tables lastRow isReset trace row)
    (inside : endRow (b + 2) ≤ lastRow) :
    outAt trace (b + 2) = nfNoteFromPk tables pk amount rho blind := by
  have before : ∀ c ≤ b + 2, ∀ row < endRow c, BaseRow tables lastRow isReset trace row :=
    fun c le row less => base row (less.trans_le (endRow_mono le))
  have within : ∀ c ≤ b + 2, endRow c ≤ lastRow := fun c le => (endRow_mono le).trans inside
  have first := block_output (before b (by omega)) (within b (by omega)) run.seeded
  have second := run.rhoFold.output (before (b + 1) (by omega)) (within (b + 1) (by omega))
  have third := run.blindFold.output base inside
  rw [third, second, first, run.input, low_join, high_join]
  rfl

/-- Blocks `0` to `depth + 4` open a note, walk its path and compress its nullifier. -/
structure SpendRun (trace : Trace F) (depth : Nat) (nk amount rho blind : F)
    (path : MerklePath256 F) : Prop where
  input : stateAt trace 0 = join (nodeOf nk) 0
  amountFold : Absorbed trace (endRow 0) amount
  rhoFold : Absorbed trace (endRow 1) rho
  blindFold : Absorbed trace (endRow 2) blind
  height : path.siblings.length = depth
  levels : ∀ k, (inside : k < path.siblings.length) →
    Injected trace (endRow (3 + k)) (path.index.testBit k) ∧
      sibAt trace (endRow (3 + k)) = path.siblings[k]
  reset : stateAt trace (merkleBlock * (depth + 4)) = join (nodeOf nk) (nodeOf rho) ∧
    foldAt trace (merkleBlock * (depth + 4)) = halves (stateAt trace (merkleBlock * (depth + 4)))

section Outputs

variable {lastRow depth : Nat} {isReset : Nat → Bool} {trace : Trace F} {nk amount rho blind : F}
  {path : MerklePath256 F}

theorem SpendRun.inputPins (run : SpendRun trace depth nk amount rho blind path) :
    ∀ col ∈ [1, 2, 3, 4, 5, 6, 7], trace col 0 = 0 := by
  have lows : ∀ i : Fin 4, trace i 0 = nodeOf nk i := fun i => by
    rw [← low_join (nodeOf nk) 0, ← run.input]
    rfl
  have highs : ∀ i : Fin 4, trace (4 + i) 0 = (0 : Node256 F) i := fun i => by
    rw [← high_join (nodeOf nk) 0, ← run.input]
    rfl
  simp only [List.forall_mem_cons, List.not_mem_nil, false_implies, implies_true, and_true]
  exact ⟨lows 1, lows 2, lows 3, highs 0, highs 1, highs 2, highs 3⟩

/-- The block under the root outputs where the path leads to from the note. -/
theorem SpendRun.root_output (run : SpendRun trace depth nk amount rho blind path)
    (base : ∀ row < endRow (depth + 4), BaseRow tables lastRow isReset trace row)
    (inside : endRow (depth + 4) ≤ lastRow) :
    outAt trace (depth + 3) = climbPath tables
      (nfNoteFromPk tables (nfAddress tables nk) amount rho blind) path.index path.siblings := by
  have before : ∀ c ≤ depth + 4, ∀ row < endRow c, BaseRow tables lastRow isReset trace row :=
    fun c le row less => base row (less.trans_le (endRow_mono le))
  have within : ∀ c ≤ depth + 4, endRow c ≤ lastRow := fun c le => (endRow_mono le).trans inside
  have address : outAt trace 0 = nfAddress tables nk := by
    have seeded := (base 0 (by rw [endRow_eq]; omega)).first rfl
    have output := block_output (b := 0) (before 0 (by omega)) (within 0 (by omega)) seeded
    rw [output, Nat.mul_zero, run.input, low_join, high_join]
    rfl
  have note : outAt trace 3 = nfNoteFromPk tables (nfAddress tables nk) amount rho blind := by
    have sponge : NoteRun trace 1 (nfAddress tables nk) amount rho blind := by
      constructor
      case input =>
        have state := run.amountFold.injected.state
        rw [run.amountFold.sib] at state
        exact state.trans (by rw [← address]; rfl)
      case seeded => exact run.amountFold.injected.fold
      case rhoFold => exact run.rhoFold
      case blindFold => exact run.blindFold
    exact sponge.output (before 3 (by omega)) (within 3 (by omega))
  have chain := climbPath_chain tables (fun k => outAt trace (3 + k))
    (fun k => sibAt trace (endRow (3 + k))) path.index depth (by
      intro k less
      exact injected_output (before (3 + k + 1) (by omega)) (within (3 + k + 1) (by omega))
        (run.levels k (by rw [run.height]; exact less)).1)
  have siblings : (List.range depth).map (fun k => sibAt trace (endRow (3 + k))) =
      path.siblings := by
    refine List.ext_getElem (by rw [List.length_map, List.length_range, run.height]) ?_
    intro k left right
    rw [List.getElem_map, List.getElem_range]
    exact (run.levels k right).2
  rw [siblings, note] at chain
  rw [chain, Nat.add_comm]

theorem SpendRun.nullifier_output (run : SpendRun trace depth nk amount rho blind path)
    (base : ∀ row < endRow (depth + 4), BaseRow tables lastRow isReset trace row)
    (inside : endRow (depth + 4) ≤ lastRow) :
    outAt trace (depth + 4) = nfNullifier tables nk rho := by
  rw [block_output base inside run.reset.2, run.reset.1, low_join, high_join]
  rfl

end Outputs

/-! ## Reading a run off a trace -/

section Read

variable {trace : Trace F} {row : Nat}

theorem nodeOf_cell (node : Node256 F) (first : node 1 = 0) (second : node 2 = 0)
    (third : node 3 = 0) : node = nodeOf (node 0) := by
  funext i
  match i with
  | 0 => rfl
  | 1 => exact first
  | 2 => exact second
  | 3 => exact third

theorem absorbed_of_pins [Nontrivial F] (injected : ∃ side, Injected trace row side)
    (pins : ∀ col ∈ [9, 10, 11, 12], trace col row = 0) :
    Absorbed trace row (trace 8 row) := by
  obtain ⟨side, injected⟩ := injected
  have bit := injected.bit
  rw [pins 12 (by simp)] at bit
  cases side with
  | true => exact absurd bit zero_ne_one
  | false =>
    exact ⟨injected, nodeOf_cell _ (pins 9 (by simp)) (pins 10 (by simp)) (pins 11 (by simp))⟩

theorem path_of_levels (depth : Nat)
    (levels : ∀ k < depth, ∃ side, Injected trace (endRow (3 + k)) side) :
    ∃ path : MerklePath256 F, path.siblings.length = depth ∧
      ∀ k, (inside : k < path.siblings.length) →
        Injected trace (endRow (3 + k)) (path.index.testBit k) ∧
          sibAt trace (endRow (3 + k)) = path.siblings[k] := by
  choose side injected using levels
  refine ⟨⟨Nat.ofBits fun k : Fin depth => side k k.isLt,
    (List.range depth).map fun k => sibAt trace (endRow (3 + k))⟩, by simp, ?_⟩
  intro k inside
  have less : k < depth := by simpa using inside
  refine ⟨?_, by simp⟩
  rw [Nat.testBit_ofBits_lt _ _ less]
  exact injected k less

omit [CommRing F] in
theorem carried_const {col T : Nat}
    (carried : ∀ row, row + 1 < T → trace col (row + 1) = trace col row) {row : Nat}
    (inside : row < T) : trace col row = trace col 0 := by
  induction row with
  | zero => rfl
  | succ row ih => rw [carried row inside, ih (by omega)]

/-- A spend's run, read off the rows, the pinned cells and the reset. -/
theorem SpendRun.read [Nontrivial F] (trace : Trace F) (depth : Nat) (isReset : Nat → Bool)
    {lastRow : Nat}
    (base : ∀ row < endRow (depth + 3), BaseRow tables lastRow isReset trace row)
    (inside : endRow (depth + 3) ≤ lastRow) (kept : ∀ b < depth + 3, isReset (endRow b) = false)
    (input : ∀ col ∈ [1, 2, 3, 4, 5, 6, 7], trace col 0 = 0)
    (folds : ∀ b < 3, ∀ col ∈ [9, 10, 11, 12], trace col (endRow b) = 0)
    (reset : stateAt trace (merkleBlock * (depth + 4)) =
        join (nodeOf (trace 0 0)) (nodeOf (trace 8 (endRow 1))) ∧
      foldAt trace (merkleBlock * (depth + 4)) =
        halves (stateAt trace (merkleBlock * (depth + 4)))) :
    ∃ path, SpendRun trace depth (trace 0 0) (trace 8 (endRow 0)) (trace 8 (endRow 1))
      (trace 8 (endRow 2)) path := by
  have injected : ∀ b < depth + 3, ∃ side, Injected trace (endRow b) side := by
    intro b less
    have before : endRow b < endRow (depth + 3) := endRow_lt less
    exact (base _ before).inject (before.trans_le inside) (endRow_mod b) (kept b less)
  have absorbed : ∀ b < 3, Absorbed trace (endRow b) (trace 8 (endRow b)) := fun b less =>
    absorbed_of_pins (injected b (by omega)) (folds b less)
  obtain ⟨path, height, levels⟩ := path_of_levels depth fun k less => injected (3 + k) (by omega)
  refine ⟨path, ?_⟩
  constructor
  case input =>
    refine state_ext ?_ ?_
    · rw [low_join]
      exact nodeOf_cell (low (stateAt trace 0)) (input 1 (by simp)) (input 2 (by simp))
        (input 3 (by simp))
    · rw [high_join]
      funext i
      match i with
      | 0 => exact input 4 (by simp)
      | 1 => exact input 5 (by simp)
      | 2 => exact input 6 (by simp)
      | 3 => exact input 7 (by simp)
  case amountFold => exact absorbed 0 (by omega)
  case rhoFold => exact absorbed 1 (by omega)
  case blindFold => exact absorbed 2 (by omega)
  case height => exact height
  case levels => exact levels
  case reset => exact reset

end Read

end Obscura.Stark.Wide
