import Mathlib.Data.Nat.Bitwise
import Obscura.MerkleProofs
import Obscura.Streaming

/-! # Membership proofs of the Merkle accumulator

`prove` collects the siblings of a leaf level by level, where a lone node is promoted and
has none; `verify` derives the sides of the siblings from the claimed index and size. Both
agree on the sides (`sides_prove`), so proofs are accepted; and without collisions an
accepted proof is of an element, at its index when the size is that of the tree.
-/

namespace Obscura.PQAccum

open Wire

variable (V : Primitives)

/-! ## Proving -/

/-- The siblings on the way up from a position of a level. -/
def provePath : Nat → List Hash → Nat → List PathStep
  | 0, _, _ => []
  | rounds + 1, nodes, idx =>
    if nodes.length ≤ 1 then
      []
    else
      let above := provePath rounds (promotePairs V nodes) (idx / 2)
      if idx % 2 = 0 then
        match nodes[idx + 1]? with
        | some right => ⟨right, true⟩ :: above
        | none => above
      else
        ⟨nodes[idx - 1]?.getD zeroHash, false⟩ :: above

/-- The proof of a leaf; a streaming accumulator has none. -/
def Accumulator.prove (a : Accumulator) (index : Int) : Except String Proof :=
  if a.streaming then
    .error "pqaccum: streaming accumulator cannot prove (no leaves retained)"
  else if index < 0 ∨ (a.leaves.length : Int) ≤ index then
    .error "pqaccum: index out of range"
  else
    .ok {
      index := index.toNat
      size := a.leaves.length
      path := provePath V a.leaves.length a.leaves index.toNat }

/-- The side and the hash of a sibling. -/
def PathStep.marshal (step : PathStep) : Bytes :=
  (if step.isRight then 1 else 0) :: step.hash

/-- The wire format of a proof. -/
def Proof.marshal (proof : Proof) : Bytes :=
  putU64 proof.index ++ putU64 proof.size ++ putU64 proof.path.length ++
    proof.path.flatMap PathStep.marshal

variable {V}

/-- A step as a sibling and the side it is on. -/
def PathStep.side (step : PathStep) : Hash × Bool := (step.hash, !step.isRight)

theorem promotePairs_levelUp (nodes : List Hash) :
    promotePairs V nodes = Merkle.levelUp (fun last => last) (nodeHash V) nodes := by
  fun_induction promotePairs V nodes with
  | case1 => rfl
  | case2 lone => rfl
  | case3 left right rest ih => rw [Merkle.levelUp, ih]

/-- **The path.** It leads from its node to the root, and its sides are the turns from its
position. -/
theorem provePath_spec {nodes : List Hash} {node : Hash} {rounds idx : Nat}
    (enough : nodes.length ≤ rounds + 1) (here : nodes[idx]? = some node) :
    Frontier.opens (nodeHash V) node ((provePath V rounds nodes idx).map PathStep.side) =
        rootOfLeaves V rounds nodes ∧
      (provePath V rounds nodes idx).map (fun step => !step.isRight) =
        Merkle.promotedTurns rounds nodes.length idx := by
  induction rounds generalizing nodes node idx with
  | zero =>
    match nodes with
    | [] => exact nomatch here
    | [top] =>
      obtain ⟨rfl, rfl⟩ := position_of_singleton here
      exact ⟨rfl, rfl⟩
    | _ :: _ :: _ =>
      rw [List.length_cons, List.length_cons] at enough
      omega
  | succ rounds ih =>
    match nodes with
    | [] => exact nomatch here
    | [top] =>
      obtain ⟨rfl, rfl⟩ := position_of_singleton here
      exact ⟨rfl, rfl⟩
    | left :: right :: rest =>
      have several : ¬(left :: right :: rest).length ≤ 1 := by
        rw [List.length_cons, List.length_cons]
        omega
      have merged : rootOfLeaves V (rounds + 1) (left :: right :: rest) =
          rootOfLeaves V rounds (promotePairs V (left :: right :: rest)) := rfl
      rw [merged, provePath, if_neg several, Merkle.promotedTurns, if_neg several]
      generalize left :: right :: rest = nodes at enough here several ⊢
      have length : (promotePairs V nodes).length = (nodes.length + 1) / 2 := by
        rw [promotePairs_levelUp, Merkle.length_levelUp]
      have enough' : (promotePairs V nodes).length ≤ rounds + 1 := by
        rw [length]
        omega
      have parent := @Merkle.getElem?_levelUp _ (fun last => last) (nodeHash V) nodes (idx / 2)
      rw [← promotePairs_levelUp] at parent
      rw [← length]
      have inside := (List.getElem?_eq_some_iff.mp here).1
      by_cases odd : idx % 2 = 1
      · have place : 2 * (idx / 2) = idx - 1 := by omega
        have before : idx - 1 < nodes.length := by omega
        rw [place, List.getElem?_eq_getElem before, Option.map_some,
          Nat.sub_add_cancel (by omega), here] at parent
        obtain ⟨opened, sides⟩ := ih enough' parent
        rw [if_neg (by omega), if_pos odd, List.map_cons, List.map_cons, sides, ← opened,
          List.getElem?_eq_getElem before]
        exact ⟨rfl, rfl⟩
      · have place : 2 * (idx / 2) = idx := by omega
        rw [place, here, Option.map_some] at parent
        obtain ⟨opened, sides⟩ := ih enough' parent
        rw [if_pos (by omega), if_neg odd]
        by_cases paired : idx + 1 < nodes.length
        · rw [List.getElem?_eq_getElem paired] at opened ⊢
          rw [if_pos paired, List.map_cons, List.map_cons, sides, ← opened]
          exact ⟨rfl, rfl⟩
        · rw [List.getElem?_eq_none (Nat.le_of_not_lt paired)] at opened ⊢
          rw [if_neg paired]
          exact ⟨opened, sides⟩

/-! ## The sides derived by the verifier -/

theorem bitLen_half {number : Nat} (positive : number ≠ 0) :
    bitLen number = bitLen (number / 2) + 1 := by
  rw [bitLen, if_neg positive, bitLen, Nat.log2_def]
  by_cases small : 2 ≤ number
  · rw [if_pos small, if_neg (by omega)]
  · rw [if_neg small, if_pos (by omega)]

/-- The bits of a number and of its half. -/
theorem onesCount_half {number : Nat} (word : number < 2 ^ 64) :
    onesCount number = number % 2 + onesCount (number / 2) := by
  have last : (number / 2).testBit 63 = false :=
    Nat.testBit_lt_two_pow (by omega)
  have lower : onesCount (number / 2) =
      ((List.range 63).filter fun bit => (number / 2).testBit bit).length := by
    rw [onesCount, List.range_succ, List.filter_append, List.length_append]
    simp [last]
  have upper : ((List.range 63).filter ((fun bit => number.testBit bit) ∘ Nat.succ)).length =
      ((List.range 63).filter fun bit => (number / 2).testBit bit).length := by
    congr 2
    funext bit
    exact Nat.testBit_succ number bit
  rw [lower, ← upper, onesCount, List.range_succ_eq_map, List.filter_cons, List.filter_map,
    Nat.testBit_zero]
  rcases Nat.mod_two_eq_zero_or_one number with even | odd
  · rw [even]
    simp
  · rw [odd]
    simp [Nat.add_comm]

/-- The levels at which the position has an inner sibling. -/
def innerLevels (index size : Nat) : Nat := bitLen (index ^^^ (size - 1))

/-- The sides of the siblings for an index and a size: the bits of the index up to where
the last position joins, then left at every one bit above. -/
def expectedTurns (index size : Nat) : List Bool :=
  (List.range (innerLevels index size)).map index.testBit ++
    List.replicate (onesCount (index >>> innerLevels index size)) true

/-- The turns that the code expects are those of promotion. -/
theorem expectedTurns_eq {rounds index size : Nat} (inside : index < size)
    (enough : size ≤ rounds + 1) (word : size ≤ 2 ^ 64) :
    expectedTurns index size = Merkle.promotedTurns rounds size index := by
  induction rounds generalizing index size with
  | zero =>
    obtain rfl : index = 0 := by omega
    obtain rfl : size = 1 := by omega
    rfl
  | succ rounds ih =>
    unfold Merkle.promotedTurns
    split
    case isTrue small =>
      obtain rfl : index = 0 := by omega
      obtain rfl : size = 1 := by omega
      rfl
    case isFalse several =>
      have last : (size + 1) / 2 - 1 = (size - 1) / 2 := by omega
      have above := @ih (index / 2) ((size + 1) / 2) (by omega) (by omega) (by omega)
      rw [← above]
      by_cases end' : index = size - 1
      · -- the last position: its levels up to the root have at most a left sibling
        have none : ∀ number, bitLen (number ^^^ number) = 0 := by
          intro number
          rw [Nat.xor_self]
          rfl
        rw [expectedTurns, expectedTurns, innerLevels, innerLevels, last, ← end', none, none,
          Nat.shiftRight_zero, Nat.shiftRight_zero, onesCount_half (by omega : index < 2 ^ 64)]
        rcases Nat.mod_two_eq_zero_or_one index with even | odd
        · rw [if_neg (by omega), if_neg (by omega), even, Nat.zero_add]
          rfl
        · rw [if_pos odd, odd, Nat.add_comm, List.replicate_succ]
          rfl
      · -- below the last position the lowest bit is inner
        have apart : index ^^^ (size - 1) ≠ 0 := fun same => end' (Nat.eq_of_xor_eq_zero same)
        have levels : innerLevels index size = innerLevels (index / 2) ((size + 1) / 2) + 1 := by
          rw [innerLevels, bitLen_half apart, Nat.xor_div_two, innerLevels, last]
        have turns : expectedTurns index size =
            decide (index % 2 = 1) :: expectedTurns (index / 2) ((size + 1) / 2) := by
          rw [expectedTurns, levels, List.range_succ_eq_map, List.map_cons, List.map_map,
            Nat.testBit_zero, Nat.shiftRight_succ_inside, List.cons_append, expectedTurns]
          congr 3
          funext bit
          exact Nat.testBit_succ index bit
        rw [turns]
        rcases Nat.mod_two_eq_zero_or_one index with even | odd
        · rw [if_neg (by omega), if_pos (by omega), even]
          rfl
        · rw [if_pos odd, odd]
          rfl

@[simp] theorem length_expectedTurns (index size : Nat) :
    (expectedTurns index size).length =
      innerLevels index size + onesCount (index >>> innerLevels index size) := by
  rw [expectedTurns, List.length_append, List.length_map, List.length_range,
    List.length_replicate]

/-- The siblings of a proof on the sides derived from its index and size. -/
def Proof.sides (proof : Proof) : List (Hash × Bool) :=
  let inner := innerLevels proof.index proof.size
  (proof.path.take inner).zipIdx.map (fun (step, level) =>
      (step.hash, proof.index.testBit level)) ++
    (proof.path.drop inner).map fun step => (step.hash, true)

/-- The hashes along a path. -/
theorem Proof.sides_fst (proof : Proof) :
    proof.sides.map Prod.fst = proof.path.map PathStep.hash := by
  have inner : ∀ steps : List PathStep, (steps.zipIdx.map fun (step, level) =>
      (step.hash, proof.index.testBit level)).map Prod.fst = steps.map PathStep.hash := by
    intro steps
    rw [List.map_map]
    change steps.zipIdx.map (PathStep.hash ∘ Prod.fst) = _
    rw [← List.map_map, List.zipIdx_map_fst]
  rw [sides, List.map_append, inner, List.map_map]
  change _ ++ (proof.path.drop _).map PathStep.hash = _
  rw [← List.map_append, List.take_append_drop]

/-- The sides along a path of the right length. -/
theorem Proof.sides_snd {proof : Proof}
    (length : proof.path.length = (expectedTurns proof.index proof.size).length) :
    proof.sides.map Prod.snd = expectedTurns proof.index proof.size := by
  rw [length_expectedTurns] at length
  have inner : ∀ steps : List PathStep, (steps.zipIdx.map fun (step, level) =>
      (step.hash, proof.index.testBit level)).map Prod.snd =
      (List.range steps.length).map proof.index.testBit := by
    intro steps
    rw [List.map_map]
    change steps.zipIdx.map (proof.index.testBit ∘ Prod.snd) = _
    rw [← List.map_map, List.zipIdx_map_snd, List.range_eq_range']
  have above : ((proof.path.drop (innerLevels proof.index proof.size)).map fun step =>
      (step.hash, true)).map Prod.snd =
      List.replicate (proof.path.length - innerLevels proof.index proof.size) true := by
    rw [List.map_map, ← List.length_drop]
    exact List.map_const'
  rw [sides, List.map_append, inner, above, List.length_take, length, Nat.add_sub_cancel_left,
    Nat.min_eq_left (Nat.le_add_right _ _), expectedTurns]

/-- What the verifier checks. -/
theorem verify_iff {root data : Bytes} {proof : Proof} :
    verify V root data proof = true ↔ root.length = 32 ∧ proof.index < proof.size ∧
      proof.size ≤ maxProofSize ∧
      proof.path.length = (expectedTurns proof.index proof.size).length ∧
      (∀ step ∈ proof.path, step.hash.length = 32) ∧
      Frontier.opens (nodeHash V) (leafHash V data) proof.sides = root := by
  have climbed : Frontier.opens (nodeHash V) (leafHash V data) proof.sides =
      (proof.path.drop (innerLevels proof.index proof.size)).foldl
        (fun node step => nodeHash V step.hash node)
        ((proof.path.take (innerLevels proof.index proof.size)).zipIdx.foldl
          (fun node (step, level) =>
            if proof.index.testBit level then nodeHash V step.hash node
            else nodeHash V node step.hash) (leafHash V data)) := by
    rw [Frontier.opens, Proof.sides, List.foldl_append, List.foldl_map, List.foldl_map]
    rfl
  rw [length_expectedTurns, climbed]
  unfold verify
  split
  case isTrue refused =>
    refine ⟨by rintro ⟨⟩, fun accepted => ?_⟩
    obtain ⟨width, inside, bounded, -⟩ := accepted
    omega
  case isFalse allowed =>
    have guards : root.length = 32 ∧ proof.index < proof.size ∧ proof.size ≤ maxProofSize := by
      omega
    dsimp only
    by_cases refused : proof.path.length ≠ innerLevels proof.index proof.size +
        onesCount (proof.index >>> innerLevels proof.index proof.size) ∨
        (proof.path.any fun step => decide (step.hash.length ≠ 32)) = true
    · rw [innerLevels] at refused
      rw [if_pos refused]
      refine ⟨by rintro ⟨⟩, fun accepted => ?_⟩
      obtain ⟨-, -, -, length, widths, -⟩ := accepted
      rcases refused with shape | narrow
      · exact absurd length shape
      · obtain ⟨step, member, wrong⟩ := List.any_eq_true.mp narrow
        exact absurd (widths step member) (of_decide_eq_true wrong)
    · have length := not_not.mp (not_or.mp refused).1
      have widths : ∀ step ∈ proof.path, step.hash.length = 32 := by
        intro step member
        by_contra wrong
        exact (not_or.mp refused).2 (List.any_eq_true.mpr ⟨step, member, decide_eq_true wrong⟩)
      rw [innerLevels] at refused
      rw [if_neg refused, beq_iff_eq]
      constructor
      · intro same
        exact ⟨guards.1, guards.2.1, guards.2.2, length, widths, same⟩
      · rintro ⟨-, -, -, -, -, same⟩
        exact same

/-! ## The wire format -/

/-- The steps of a path are read back. -/
theorem parseSteps_marshal (steps : List PathStep)
    (widths : ∀ step ∈ steps, step.hash.length = 32) :
    parseSteps steps.length (steps.flatMap PathStep.marshal) = steps := by
  induction steps with
  | nil => rfl
  | cons step steps ih =>
    have width : step.hash.length = 32 := widths step List.mem_cons_self
    have rest := ih fun step member => widths step (List.mem_cons_of_mem _ member)
    rw [List.flatMap_cons, PathStep.marshal, List.cons_append, List.length_cons, parseSteps,
      List.drop_succ_cons, List.drop_zero, List.take_left' width, List.drop_succ_cons,
      List.drop_left' width, rest]
    congr 1
    obtain ⟨hash, isRight⟩ := step
    cases isRight <;> rfl

/-- A step takes 33 bytes. -/
theorem length_marshal_steps (steps : List PathStep)
    (widths : ∀ step ∈ steps, step.hash.length = 32) :
    (steps.flatMap PathStep.marshal).length = steps.length * 33 := by
  induction steps with
  | nil => rfl
  | cons step steps ih =>
    have width : step.hash.length = 32 := widths step List.mem_cons_self
    have rest := ih fun step member => widths step (List.mem_cons_of_mem _ member)
    rw [List.flatMap_cons, List.length_append, rest, PathStep.marshal, List.length_cons, width,
      List.length_cons]
    ring

/-- **Marshal and ParseProof.** -/
theorem parseProof_marshal {proof : Proof} (inside : proof.index < proof.size)
    (bounded : proof.size ≤ maxProofSize) (short : proof.path.length ≤ 64)
    (widths : ∀ step ∈ proof.path, step.hash.length = 32) :
    parseProof proof.marshal = some proof := by
  have bound : maxProofSize < 256 ^ 8 := by decide
  have index : (putU64 proof.index).length = 8 := length_bigEndian 8 _
  have size : (putU64 proof.size).length = 8 := length_bigEndian 8 _
  have count : (putU64 proof.path.length).length = 8 := length_bigEndian 8 _
  have steps := length_marshal_steps proof.path widths
  have total : proof.marshal.length = 24 + proof.path.length * 33 := by
    rw [Proof.marshal, List.length_append, List.length_append, List.length_append, index, size,
      count, steps]
  have head : proof.marshal.take 8 = putU64 proof.index := by
    rw [Proof.marshal, List.append_assoc, List.append_assoc, List.take_left' index]
  have second : (proof.marshal.drop 8).take 8 = putU64 proof.size := by
    rw [Proof.marshal, List.append_assoc, List.append_assoc, List.drop_left' index,
      List.take_left' size]
  have third : (proof.marshal.drop 16).take 8 = putU64 proof.path.length := by
    rw [Proof.marshal, List.append_assoc, List.drop_left'
      (by rw [List.length_append, index, size]), List.take_left' count]
  have tail : proof.marshal.drop 24 = proof.path.flatMap PathStep.marshal := by
    rw [Proof.marshal, List.drop_left'
      (by rw [List.length_append, List.length_append, index, size, count])]
  rw [parseProof, if_neg (by omega), head, second, third, tail, putU64, putU64, putU64,
    ofBigEndian_bigEndian, ofBigEndian_bigEndian, ofBigEndian_bigEndian,
    Nat.mod_eq_of_lt (by omega), Nat.mod_eq_of_lt (by omega), Nat.mod_eq_of_lt (by omega)]
  dsimp only
  rw [parseSteps_marshal proof.path widths]
  exact if_neg (by omega)

/-! ## Proofs of members -/

section Members

/-- The tree over what was added, a lone node promoted. -/
def dataTree (data : List Bytes) : Merkle.Tree Bytes :=
  Merkle.promoted (.leaf []) data.length (data.map .leaf)

variable (V) in
/-- The strings hashed for the root. -/
def treeStrings (data : List Bytes) : List Bytes :=
  ((dataTree data).inputs (leafHash V) (nodeHash V)).map hashString

variable (V) in
/-- The strings hashed to check a proof. -/
def proofStrings (item : Bytes) (proof : Proof) : List Bytes :=
  (Merkle.openInputs (leafHash V) (nodeHash V) item proof.sides).map hashString

theorem foldl_add_new (data : List Bytes) :
    data.foldl (Accumulator.add V) .new = retained V data := by
  rw [Accumulator.foldl_add_leaves V .new rfl]
  rfl

theorem rootOfLeaves_levels (rounds : Nat) (level : List Hash) :
    rootOfLeaves V rounds level =
      Merkle.collapse (fun last => last) (nodeHash V) zeroHash rounds level := by
  induction rounds generalizing level with
  | zero =>
    match level with
    | [] => rfl
    | [_] => rfl
    | _ :: _ :: _ => rfl
  | succ rounds ih =>
    match level with
    | [] => rfl
    | [_] => rfl
    | left :: right :: rest =>
      rw [rootOfLeaves, ih, promotePairs_levelUp, Merkle.collapse_cons_cons]
      all_goals exact nofun

/-- The root of the tree of the data. -/
theorem root_dataTree {data : List Bytes} (occupied : data ≠ []) :
    (dataTree data).root (leafHash V) (nodeHash V) = (retained V data).root V := by
  have someLeaves : data.map Merkle.Tree.leaf ≠ [] := by simpa using occupied
  have collapsed : (dataTree data).root (leafHash V) (nodeHash V) =
      Merkle.collapse (fun last => last) (nodeHash V) zeroHash data.length
        ((data.map Merkle.Tree.leaf).map (Merkle.Tree.root (leafHash V) (nodeHash V))) :=
    Merkle.collapse_map (Merkle.Tree.root (leafHash V) (nodeHash V)) (fun _ => rfl)
      (fun _ _ => rfl) someLeaves data.length
  have retains : (retained V data).root V =
      rootOfLeaves V (data.map (leafHash V)).length (data.map (leafHash V)) := rfl
  rw [collapsed, retains, rootOfLeaves_levels, List.map_map, List.length_map]
  rfl

theorem mem_of_mem_dataTree {data : List Bytes} {item : Bytes} (occupied : data ≠ [])
    (member : item ∈ (dataTree data).leaves) : item ∈ data := by
  have someLeaves : data.map Merkle.Tree.leaf ≠ [] := by simpa using occupied
  obtain ⟨tree, inLevel, below⟩ := Merkle.mem_leaves_collapse (fun _ => List.Subset.refl _)
    someLeaves data.length member
  obtain ⟨own, inData, rfl⟩ := List.mem_map.mp inLevel
  rw [List.mem_singleton.mp below]
  exact inData

/-- The proof of an item. -/
theorem prove_retained {data : List Bytes} {index : Nat} (inside : index < data.length) :
    (retained V data).prove V index =
      .ok ⟨index, data.length, provePath V data.length (data.map (leafHash V)) index⟩ := by
  have length : (data.map (leafHash V)).length = data.length := List.length_map _
  have range : ¬((index : Int) < 0 ∨ ((retained V data).leaves.length : Int) ≤ index) := by
    rw [retained, length]
    omega
  rw [Accumulator.prove, if_neg (by rintro ⟨⟩), if_neg range]
  simp only [retained, length, Int.toNat_natCast]

theorem verify_oversized {root item : Bytes} {proof : Proof} (large : maxProofSize < proof.size) :
    verify V root item proof = false := by
  rw [Bool.eq_false_iff]
  intro verified
  obtain ⟨-, -, bounded, -⟩ := verify_iff.mp verified
  exact absurd large (Nat.not_lt_of_le bounded)

section Width

variable (width : ∀ data, (V.blake2b data).length = 32)

include width

/-- The hashes of a proof have 32 bytes. -/
theorem provePath_widths {nodes : List Hash} (widths : ∀ node ∈ nodes, node.length = 32)
    (rounds idx : Nat) : ∀ step ∈ provePath V rounds nodes idx, step.hash.length = 32 := by
  induction rounds generalizing nodes idx with
  | zero => exact fun step member => nomatch member
  | succ rounds ih =>
    have up : ∀ node ∈ promotePairs V nodes, node.length = 32 := by
      fun_induction promotePairs V nodes with
      | case1 => exact fun node member => nomatch member
      | case2 lone => exact widths
      | case3 left right rest up =>
        intro node member
        rcases List.mem_cons.mp member with rfl | later
        · exact width _
        · apply up _ node later
          intro node inRest
          exact widths node (List.mem_cons_of_mem _ (List.mem_cons_of_mem _ inRest))
    have above := ih up (idx / 2)
    intro step member
    unfold provePath at member
    split at member
    · exact nomatch member
    · split at member
      · split at member
        case h_1 right found =>
          rcases List.mem_cons.mp member with rfl | later
          · exact widths right (List.mem_of_getElem? found)
          · exact above step later
        case h_2 => exact above step member
      · rcases List.mem_cons.mp member with rfl | later
        · cases found : nodes[idx - 1]? with
          | none => exact List.length_replicate
          | some left => exact widths left (List.mem_of_getElem? found)
        · exact above step later

/-- The proof of a leaf is accepted and survives its wire format. -/
theorem prove_verified {data : List Bytes} {index : Nat} (inside : index < data.length)
    (bounded : data.length ≤ maxProofSize) :
    ∃ proof, (retained V data).prove V index = .ok proof ∧
      verify V ((retained V data).root V) data[index] proof = true ∧
      parseProof proof.marshal = some proof := by
  have length : (data.map (leafHash V)).length = data.length := List.length_map _
  have here : (data.map (leafHash V))[index]? = some (leafHash V data[index]) := by
    rw [List.getElem?_map, List.getElem?_eq_getElem inside]
    rfl
  obtain ⟨opened, turns⟩ := @provePath_spec V _ _ data.length _
    (by rw [length]; exact Nat.le_succ _) here
  have word : data.length ≤ 2 ^ 64 := bounded.trans (by decide)
  rw [length, ← expectedTurns_eq inside (Nat.le_succ _) word] at turns
  have widths := @provePath_widths V width (data.map (leafHash V)) (fun node member => by
    obtain ⟨item, -, rfl⟩ := List.mem_map.mp member
    exact width _) data.length index
  set path := provePath V data.length (data.map (leafHash V)) index with collected
  have shape : path.length = (expectedTurns index data.length).length := by
    rw [← turns, List.length_map]
  have proved : (retained V data).prove V index = .ok ⟨index, data.length, path⟩ :=
    prove_retained inside
  refine ⟨_, proved, ?_, ?_⟩
  · have sides : (Proof.mk index data.length path).sides = path.map PathStep.side := by
      have fsts := (Proof.mk index data.length path).sides_fst
      have snds := @Proof.sides_snd ⟨index, data.length, path⟩ shape
      have same : path.map (fun step => !step.isRight) = (path.map PathStep.side).map Prod.snd := by
        rw [List.map_map]
        rfl
      have hashes : path.map PathStep.hash = (path.map PathStep.side).map Prod.fst := by
        rw [List.map_map]
        rfl
      rw [hashes] at fsts
      rw [← turns, same] at snds
      rw [← List.zip_unzip (Proof.mk index data.length path).sides, List.unzip_eq_map, fsts, snds,
        ← List.unzip_eq_map, List.zip_unzip]
    have rooted : (retained V data).root V =
        rootOfLeaves V data.length (data.map (leafHash V)) := by
      change rootOfLeaves V (data.map (leafHash V)).length (data.map (leafHash V)) = _
      rw [length]
    have rootWidth : ((retained V data).root V).length = 32 := by
      rw [← root_dataTree (List.ne_nil_of_length_pos (by omega))]
      exact root_width width _
    refine verify_iff.mpr ⟨rootWidth, inside, bounded, shape, widths, ?_⟩
    rw [sides, rooted]
    exact opened
  · apply parseProof_marshal inside bounded _ widths
    rw [shape, expectedTurns_eq inside (Nat.le_succ _) word]
    exact Merkle.length_promotedTurns index word

/-- An accepted proof is of an element. -/
theorem mem_of_verify {data : List Bytes} {item : Bytes} {proof : Proof}
    (collisionFree : CollisionFree V (treeStrings V data ++ proofStrings V item proof))
    (nonzero : data = [] → ∀ hashed ∈ proofStrings V item proof, V.blake2b hashed ≠ zeroHash)
    (verified : verify V ((retained V data).root V) item proof = true) :
    item ∈ data ∧ (proof.size = data.length → data[proof.index]? = some item) := by
  obtain ⟨-, inside, bounded, shape, widths, opened⟩ := verify_iff.mp verified
  by_cases empty : data = []
  · obtain ⟨input, member, hashed⟩ :=
      @Merkle.exists_openInput _ _ (leafHash V) (nodeHash V) item proof.sides
    rw [opened, empty] at hashed
    have zero : V.blake2b (hashString input) = zeroHash := (hashInput_string input).symm.trans hashed
    exact absurd zero (nonzero empty _ (List.mem_map_of_mem member))
  · rw [← root_dataTree empty] at opened
    have siblings : ∀ side ∈ proof.sides, side.1.length = 32 := by
      intro side member
      have hashes := List.mem_map_of_mem (f := Prod.fst) member
      rw [proof.sides_fst] at hashes
      obtain ⟨step, inPath, same⟩ := List.mem_map.mp hashes
      rw [← same]
      exact widths step inPath
    have reached : (dataTree data).descend (proof.sides.map Prod.snd).reverse =
        some (.leaf item) := by
      apply Merkle.Tree.descend_of_opens collisionFree.injOn _ _ opened
      · intro input member
        refine ⟨List.mem_append_left _ (List.mem_map_of_mem member), ?_⟩
        exact framed_inputs width _ input member
      · intro input member
        refine ⟨List.mem_append_right _ (List.mem_map_of_mem member), ?_⟩
        exact framed_open width siblings _ input member
    refine ⟨mem_of_mem_dataTree empty (Merkle.Tree.mem_leaves_of_descend reached), ?_⟩
    intro size
    have within : proof.index < data.length := size ▸ inside
    have word : proof.size ≤ 2 ^ 64 := bounded.trans (by decide)
    have length : (data.map Merkle.Tree.leaf).length = data.length := List.length_map _
    have turns : expectedTurns proof.index proof.size =
        Merkle.promotedTurns data.length data.length proof.index := by
      rw [← size]
      exact expectedTurns_eq inside (Nat.le_succ _) word
    have honest := @Merkle.descend_promoted _ (.leaf []) (data.map Merkle.Tree.leaf)
      (.leaf data[proof.index]) data.length proof.index (by rw [length]; exact Nat.le_succ _)
      (by rw [List.getElem?_map, List.getElem?_eq_getElem within]; rfl)
    rw [length] at honest
    rw [Proof.sides_snd shape, turns] at reached
    have same := Merkle.Tree.leaf.inj (Option.some.inj (honest.symm.trans reached))
    rw [List.getElem?_eq_getElem within, same]

end Width

open Testnet in
/-- One leaf more than a proof may claim: the leaf is proved, and the proof refused. -/
theorem oversized_proof_refused :
    ∃ proof,
      ((List.replicate (maxProofSize + 1) []).foldl (Accumulator.add (primitives checksum))
        .new).prove (primitives checksum) 0 = .ok proof ∧
      verify (primitives checksum) (((List.replicate (maxProofSize + 1) []).foldl
        (Accumulator.add (primitives checksum)) .new).root (primitives checksum)) [] proof =
        false := by
  have length : (List.replicate (maxProofSize + 1) ([] : Bytes)).length = maxProofSize + 1 :=
    List.length_replicate
  rw [foldl_add_new]
  refine ⟨_, prove_retained (by rw [length]; exact Nat.succ_pos _), verify_oversized ?_⟩
  rw [length]
  exact Nat.lt_succ_self _

/-- **Membership proofs.** In an accumulator of at most `maxProofSize` elements every
element has a proof that is accepted and survives its wire format; and an accepted proof is
of an element, at its index when its size is that of the accumulator. -/
theorem membership_complete_sound (width : ∀ data, (V.blake2b data).length = 32) :
    (∀ (data : List Bytes) (index : Nat) (inside : index < data.length),
      data.length ≤ maxProofSize →
      ∃ proof, (data.foldl (Accumulator.add V) .new).prove V index = .ok proof ∧
        verify V ((data.foldl (Accumulator.add V) .new).root V) data[index] proof = true ∧
        parseProof proof.marshal = some proof) ∧
    (∀ (data : List Bytes) (item : Bytes) (proof : Proof),
      CollisionFree V (treeStrings V data ++ proofStrings V item proof) →
      (data = [] → ∀ hashed ∈ proofStrings V item proof, V.blake2b hashed ≠ zeroHash) →
      verify V ((data.foldl (Accumulator.add V) .new).root V) item proof = true →
      item ∈ data ∧ (proof.size = data.length → data[proof.index]? = some item)) := by
  constructor
  · intro data index inside bounded
    rw [foldl_add_new]
    exact prove_verified width inside bounded
  · intro data item proof collisionFree nonzero verified
    rw [foldl_add_new] at verified
    exact mem_of_verify width collisionFree nonzero verified

open Testnet in
/-- The second of three elements, and a forged item refused under its proof. -/
theorem membership_of_three :
    (∃ proof, ([[1], [2], [3]].foldl (Accumulator.add (primitives checksum)) .new).prove
        (primitives checksum) 1 = .ok proof ∧
      verify (primitives checksum) (([[1], [2], [3]].foldl
        (Accumulator.add (primitives checksum)) .new).root (primitives checksum)) [2] proof =
        true ∧ parseProof proof.marshal = some proof) ∧
    ([[1], [2], [3]] : List Bytes)[1]? = some [2] := by
  have laws := membership_complete_sound (V := primitives checksum) checksum_length
  refine ⟨laws.1 [[1], [2], [3]] 1 (by decide) (by decide), ?_⟩
  have second := laws.2 [[1], [2], [3]] [2] ⟨1, 3, provePath (primitives checksum) 3
    ([[1], [2], [3]].map (leafHash (primitives checksum))) 1⟩ (by decide +kernel) nofun
    (by decide +kernel)
  exact second.2 rfl

end Members

end Obscura.PQAccum
