import Obscura.Lib.Numerals
import Obscura.Stark.Goldilocks
import Obscura.Stark.NoteBlocks

/-! # The mint circuit

A mint opens a note commitment for a public amount: three blocks run the note's sponge, and the
last one is bound to the public commitment through the periodic columns.
-/

namespace Obscura.Stark.Wide

section Mint

variable {F : Type} [CommRing F] (tables : WideTables F)

/-- The permutations of a mint. -/
def mintBlocks : Nat := 3

/-- The mint's `cmRow`. -/
def cmRow : Nat := merkleBlock * mintBlocks - 1

theorem cmRow_eq : cmRow = endRow 2 := rfl

theorem limb_lt {j : Nat} (limb : 13 ≤ j ∧ j ≤ 16) : j - 13 < 4 := by omega

/-- The mint's `PeriodicCol`. -/
def nfMintPeriodicCol (cm : Node256 F) (j row : Nat) : F :=
  if j = 11 then selector (row = 0)
  else if j = 12 then selector (row = cmRow)
  else if limb : 13 ≤ j ∧ j ≤ 16 then (if row = cmRow then cm ⟨j - 13, limb_lt limb⟩ else 0)
  else baseSchedule tables cmRow (fun _ => false) j row

/-- The constraints of a mint: those of the walk, and the amount taken up where its row says. -/
def nfMintConstraints {T : Type} (e : Cenv F T) (cur next per : Nat → T) : List T :=
  wideMerkleConstraints e tables cur next per (fun i => cur (13 + i)) (fun i => next (13 + i))
    (per 11) ++
  jiveRootBind e cur (fun i => cur (13 + i)) (fun i => per (13 + i)) (per 12)

/-- The mint of an amount and a note. -/
def nfMintCircuit (amount : F) (cm : Node256 F) : Circuit F where
  cols := 17
  periodic := 17
  traceLen := nextPow2 (merkleBlock * mintBlocks)
  periodicCol := nfMintPeriodicCol tables cm
  boundaries :=
    ⟨4, 0, amount⟩ :: [5, 6, 7].map (fun col => ⟨col, 0, 0⟩) ++
    [merkleBlock - 1, merkleBlock * 2 - 1].flatMap fun row =>
      [9, 10, 11, 12].map fun col => ⟨col, row, 0⟩
  constraints := nfMintConstraints tables feltEnv

/-- Row `i` of the mint trace's loop. -/
def nfMintStep [DecidableEq F] (rho blind : F) (trace : Trace F) (i : Nat) : Trace F :=
  let m := i % merkleBlock
  if m = merkleBlock - 1 then
    let b := i / merkleBlock
    foldRow trace i (if b = 0 then nodeOf rho else nodeOf blind) 0
  else roundRow tables trace i m

/-- The mint trace's first row. -/
def nfMintInput (pk : Node256 F) (amount : F) : Trace F :=
  let blank : Trace F := fun _ _ => 0
  (blank.setNode 0 0 pk).set 4 0 amount

/-- The trace of an honest mint. -/
def nfMintTrace [DecidableEq F] (pk : Node256 F) (amount rho blind : F) : Trace F :=
  fillJiveFold (runRows (nfMintStep tables rho blind) (nfMintInput pk amount) cmRow) mintBlocks
    cmRow (nextPow2 (merkleBlock * mintBlocks))

variable {tables}

/-- The mint's constraints on a row. -/
theorem nfMint_row_iff [IsDomain F] {amount : F} {cm : Node256 F} {trace : Trace F} {row : Nat} :
    AllZero ((nfMintCircuit tables amount cm).constraints (fun col => trace col row)
      (fun col => trace col (row + 1))
      (fun j => (nfMintCircuit tables amount cm).periodicCol j row)) ↔
    BaseRow tables cmRow (fun _ => false) trace row ∧ (row = cmRow → jiveAt trace row = cm) := by
  have base := baseRow_iff tables cmRow (fun _ => false) trace row
    (fun j => nfMintPeriodicCol tables cm j row) (selector (row = 0)) (by
      intro j less
      dsimp only [nfMintPeriodicCol]
      rw [if_neg (by omega), if_neg (by omega), dif_neg (by omega)]) rfl
  change AllZero (_ ++ _) ↔ _
  rw [allZero_append]
  refine and_congr base ?_
  refine rootBind_iff (fun j => nfMintPeriodicCol tables cm j row) fun here i => ?_
  have width := i.isLt
  dsimp only [nfMintPeriodicCol]
  rw [if_neg (by omega), if_neg (by omega), dif_pos (by omega), if_pos here]
  congr 1
  exact Fin.ext (by simp)

/-- **Soundness.** A satisfying trace shows an opening of the note. -/
theorem nfMint_sound [IsDomain F] {amount : F} {cm : Node256 F} {trace : Trace F}
    (satisfied : Satisfies (nfMintCircuit tables amount cm) trace) :
    ∃ pk rho blind, cm = nfNoteFromPk tables pk amount rho blind := by
  have height : endRow 2 + 1 < nextPow2 (merkleBlock * mintBlocks) := lt_nextPow2 mintBlocks
  have rows : ∀ row ≤ endRow 2, BaseRow tables cmRow (fun _ => false) trace row ∧
      (row = cmRow → jiveAt trace row = cm) := fun row le =>
    nfMint_row_iff.mp (satisfied.rows row (lt_of_le_of_lt (Nat.succ_le_succ le) height))
  have pin : ∀ b ∈ (nfMintCircuit tables amount cm).boundaries, trace b.col b.row = b.val :=
    satisfied.boundaries
  simp only [nfMintCircuit, List.mem_append, List.mem_cons, List.mem_map, List.mem_flatMap,
    List.not_mem_nil, or_false] at pin
  have amountCell : trace 4 0 = amount := pin ⟨4, 0, amount⟩ (Or.inl (Or.inl rfl))
  have inputPins : ∀ col, col = 5 ∨ col = 6 ∨ col = 7 → trace col 0 = 0 := fun col member =>
    pin ⟨col, 0, 0⟩ (Or.inl (Or.inr ⟨col, member, rfl⟩))
  have foldPins : ∀ b, b = 0 ∨ b = 1 → ∀ col ∈ [9, 10, 11, 12], trace col (endRow b) = 0 := by
    intro b which col member
    refine pin ⟨col, endRow b, 0⟩ (Or.inr ⟨endRow b, ?_, col, by simpa using member, rfl⟩)
    exact which.imp (fun zero => by rw [zero]; rfl) (fun one => by rw [one]; rfl)
  have absorbed : ∀ b, b = 0 ∨ b = 1 → Absorbed trace (endRow b) (trace 8 (endRow b)) := by
    intro b which
    have before : endRow b < endRow 2 := endRow_lt (by omega)
    exact absorbed_of_pins ((rows (endRow b) before.le).1.inject before (endRow_mod b) rfl)
      (foldPins b which)
  have run : NoteRun trace 0 (low (stateAt trace 0)) amount (trace 8 (endRow 0))
      (trace 8 (endRow 1)) := by
    constructor
    case input =>
      have upper : high (stateAt trace 0) = nodeOf amount := by
        rw [nodeOf_cell (high (stateAt trace 0)) (inputPins 5 (by simp))
          (inputPins 6 (by simp)) (inputPins 7 (by simp))]
        exact congrArg nodeOf amountCell
      rw [Nat.mul_zero, ← upper, join_low_high]
    case seeded => exact (rows 0 (Nat.zero_le _)).1.first rfl
    case rhoFold => exact absorbed 0 (Or.inl rfl)
    case blindFold => exact absorbed 1 (Or.inr rfl)
  have output := run.output (fun row less => (rows row less.le).1) le_rfl
  exact ⟨_, _, _, ((rows cmRow le_rfl).2 rfl).symm.trans output⟩

theorem nfMintStep_ahead [DecidableEq F] (rho blind : F) :
    WritesAhead (nfMintStep tables rho blind) := by
  intro trace i col row ahead aux
  dsimp only [nfMintStep]
  by_cases final : i % merkleBlock = merkleBlock - 1
  · rw [if_pos final, foldRow_frame ahead aux]
  · rw [if_neg final, roundRow_frame ahead]

theorem seededNote_state {trace : Trace F} {row : Nat} {pk : Node256 F} {amount : F}
    (blank : ∀ col < 8, trace col row = 0) :
    stateAt ((trace.setNode 0 row pk).set 4 row amount) row = join pk (nodeOf amount) := by
  refine state_ext (funext fun i => ?_) (funext fun i => ?_)
  · have width := i.isLt
    rw [low_join]
    change ((trace.setNode 0 row pk).set 4 row amount) i row = pk i
    rw [Trace.set, if_neg (by omega), setNode_cell, dif_pos (by omega)]
    rfl
  · have width := i.isLt
    rw [high_join]
    change ((trace.setNode 0 row pk).set 4 row amount) (4 + i) row = nodeOf amount i
    rw [Trace.set, setNode_cell, dif_neg (by omega), blank _ (by omega)]
    by_cases first : i = 0
    · subst first
      rw [if_pos ⟨rfl, rfl⟩]
      rfl
    · rw [if_neg (by rw [Fin.ext_iff] at first; omega), nodeOf, if_neg first]

/-- A note's trace satisfies the mint of its commitment. -/
theorem nfMint_complete [DecidableEq F] [IsDomain F] (pk : Node256 F) (amount rho blind : F) :
    Satisfies (nfMintCircuit tables amount (nfNoteFromPk tables pk amount rho blind))
      (nfMintTrace tables pk amount rho blind) := by
  have built : Built (nfMintStep tables rho blind) (nfMintInput pk amount) cmRow
      (nfMintTrace tables pk amount rho blind) :=
    Built.of_fill (nfMintStep_ahead rho blind) (fun _ _ _ => rfl) (by decide)
      (lt_trans (by decide) (lt_nextPow2 mintBlocks))
  generalize nfMintTrace tables pk amount rho blind = trace at built ⊢
  have injection : ∀ i, i % merkleBlock = merkleBlock - 1 → ∀ rows : Trace F,
      nfMintStep tables rho blind rows i =
        foldRow rows i (if i / merkleBlock = 0 then nodeOf rho else nodeOf blind)
          (if false = true then 1 else 0) := by
    intro i final rows
    simp only [nfMintStep, final, ↓reduceIte, Bool.false_eq_true]
  have base : ∀ row, BaseRow tables cmRow (fun _ => false) trace row := by
    refine built.baseRow ?_ ?_
    · intro i _ inner
      simp only [nfMintStep, inner, ↓reduceIte]
    · exact fun i _ final _ => ⟨_, false, injection i final _⟩
  have input : stateAt trace 0 = join pk (nodeOf amount) := by
    rw [built.state_first]
    exact seededNote_state fun _ _ => rfl
  have absorbed : ∀ b, b = 0 ∨ b = 1 →
      Absorbed trace (endRow b) (if b = 0 then rho else blind) := by
    intro b which
    have before : endRow b < cmRow := by
      rw [cmRow_eq]
      exact endRow_lt (by omega)
    obtain ⟨injected, sib⟩ :=
      built.injected before (endRow_mod b) (injection (endRow b) (endRow_mod b) _)
    rw [endRow_div] at sib
    exact ⟨injected, sib.trans (by split_ifs <;> rfl)⟩
  have run : NoteRun trace 0 pk amount rho blind := by
    constructor
    case input => rw [Nat.mul_zero, input]
    case seeded => exact (base 0).first rfl
    case rhoFold => exact absorbed 0 (Or.inl rfl)
    case blindFold => exact absorbed 1 (Or.inr rfl)
  constructor
  case rows =>
    intro row _
    refine nfMint_row_iff.mpr ⟨base row, fun last => ?_⟩
    rw [last]
    exact run.output (fun row _ => base row) le_rfl
  case boundaries =>
    have cell : ∀ i : Fin 4, trace (4 + i) 0 = nodeOf amount i := fun i => by
      rw [← high_join pk (nodeOf amount), ← input]
      rfl
    intro b member
    simp only [nfMintCircuit, List.mem_append, List.mem_cons, List.mem_map, List.mem_flatMap,
      List.not_mem_nil, or_false] at member
    rcases member with (rfl | ⟨col, which, rfl⟩) | ⟨row, which, col, pinned, rfl⟩
    · exact cell 0
    · rcases which with rfl | rfl | rfl
      · exact cell 1
      · exact cell 2
      · exact cell 3
    · rcases which with rfl | rfl
      · exact (absorbed 0 (Or.inl rfl)).pins col (by simpa using pinned)
      · exact (absorbed 1 (Or.inr rfl)).pins col (by simpa using pinned)

end Mint

end Obscura.Stark.Wide
