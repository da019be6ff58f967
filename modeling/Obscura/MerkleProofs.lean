import Obscura.Lib.MerkleTree
import Obscura.Template
import Obscura.Testnet

/-! # The transaction tree of a block

The tree under `merkleRoot` as a Merkle tree in the general sense: its leaves are the
transaction ids, a lone node is paired with itself, and leaves and nodes are hashed under
different prefixes. When no two of the strings hashed collide, the root determines a list
of ids without repetitions, and an accepted retrievability entry carries the transaction
at the challenged position.
-/

namespace Obscura

open Wire Tx Checked

/-! ## Prefixed hashing -/

section Prefixed

variable (V : Primitives)

/-- None of the strings hashed collide. -/
def CollisionFree (hashed : List Bytes) : Prop :=
  ∀ first ∈ hashed, ∀ second ∈ hashed, V.blake2b first = V.blake2b second → first = second

instance (hashed : List Bytes) : Decidable (CollisionFree V hashed) := by
  unfold CollisionFree
  infer_instance

/-- The string hashed for a leaf or a node. -/
def hashString : Merkle.Input Bytes Hash → Bytes
  | .inl payload => 0 :: payload
  | .inr (left, right) => 1 :: (left ++ right)

/-- The first hash of a pair has the width of a hash. -/
def Framed : Merkle.Input Bytes Hash → Prop
  | .inl _ => True
  | .inr (left, _) => left.length = 32

variable {V}

theorem hashInput_string (input : Merkle.Input Bytes Hash) :
    Merkle.hashInput (leafHash V) (internalHash V) input = V.blake2b (hashString input) := by
  rcases input with payload | ⟨left, right⟩ <;> rfl

theorem hashString_inj {first second : Merkle.Input Bytes Hash} (framed : Framed first)
    (framed' : Framed second) (same : hashString first = hashString second) : first = second := by
  rcases first with payload | ⟨left, right⟩ <;> rcases second with payload' | ⟨left', right'⟩
  · exact congrArg Sum.inl (List.cons.inj same).2
  · exact absurd (List.cons.inj same).1 (by decide)
  · exact absurd (List.cons.inj same).1 (by decide)
  · have widths : left.length = left'.length := Eq.trans framed (Eq.symm framed')
    obtain ⟨lefts, rights⟩ := List.append_inj (List.cons.inj same).2 widths
    rw [lefts, rights]

theorem CollisionFree.injOn {hashed : List Bytes} (collisionFree : CollisionFree V hashed) :
    Set.InjOn (Merkle.hashInput (leafHash V) (internalHash V))
      {input | hashString input ∈ hashed ∧ Framed input} := by
  intro first here second there same
  rw [hashInput_string, hashInput_string] at same
  exact hashString_inj here.2 there.2 (collisionFree _ here.1 _ there.1 same)

section Width

variable (width : ∀ data, (V.blake2b data).length = 32)

include width

theorem root_width (tree : Merkle.Tree Bytes) :
    (tree.root (leafHash V) (internalHash V)).length = 32 := by
  cases tree with
  | leaf payload => exact width _
  | node left right => exact width _

/-- The inputs of a tree of transactions are framed. -/
theorem framed_inputs (tree : Merkle.Tree Bytes) :
    ∀ input ∈ tree.inputs (leafHash V) (internalHash V), Framed input := by
  induction tree with
  | leaf payload =>
    intro input member
    rw [List.mem_singleton.mp member]
    exact trivial
  | node left right ihLeft ihRight =>
    intro input member
    rcases List.mem_cons.mp member with rfl | below
    · exact root_width width left
    · rcases List.mem_append.mp below with inLeft | inRight
      · exact ihLeft input inLeft
      · exact ihRight input inRight

/-- So are those of a path. -/
theorem framed_climb {path : List (Hash × Bool)} (siblings : ∀ step ∈ path, step.1.length = 32)
    {node : Hash} (start : node.length = 32) :
    ∀ input ∈ Merkle.climbInputs (γ := Bytes) (internalHash V) node path, Framed input := by
  induction path generalizing node with
  | nil => exact fun input member => nomatch member
  | cons step path ih =>
    obtain ⟨sibling, isLeft⟩ := step
    have first : sibling.length = 32 := siblings _ List.mem_cons_self
    have rest : ∀ step ∈ path, step.1.length = 32 := fun step member =>
      siblings step (List.mem_cons_of_mem _ member)
    intro input member
    cases isLeft with
    | true =>
      rcases List.mem_cons.mp member with rfl | above
      · exact first
      · exact ih rest (width _) input above
    | false =>
      rcases List.mem_cons.mp member with rfl | above
      · exact start
      · exact ih rest (width _) input above

theorem framed_open {path : List (Hash × Bool)} (siblings : ∀ step ∈ path, step.1.length = 32)
    (payload : Bytes) :
    ∀ input ∈ Merkle.openInputs (leafHash V) (internalHash V) payload path, Framed input := by
  intro input member
  rcases List.mem_cons.mp member with rfl | above
  · exact trivial
  · exact framed_climb width siblings (width _) input above

end Width

end Prefixed

/-! ## The tree under the root -/

section Tree

variable (V : Primitives)

/-- The ids of a block's transactions. -/
def txids (txs : List Transaction) : List Hash := txs.map fun t => t.hash V

/-- The tree over the ids, a lone node paired with itself. -/
def txTree (txs : List Transaction) : Merkle.Tree Hash :=
  Merkle.doubled (.leaf zeroHash) txs.length ((txids V txs).map .leaf)

/-- The strings hashed for the Merkle root. -/
def merkleStrings (txs : List Transaction) : List Bytes :=
  ((txTree V txs).inputs (leafHash V) (internalHash V)).map hashString

variable {V}

theorem mergePairs_eq (layer : List Hash) :
    mergePairs V layer = Merkle.levelUp (fun last => internalHash V last last) (internalHash V)
      layer := by
  fun_induction mergePairs V layer with
  | case1 => rfl
  | case2 lone => rfl
  | case3 left right rest ih => rw [Merkle.levelUp, ih]

theorem mergeLayers_eq (rounds : Nat) (layer : List Hash) :
    mergeLayers V rounds layer = Merkle.collapse (fun last => internalHash V last last)
      (internalHash V) zeroHash rounds layer := by
  induction rounds generalizing layer with
  | zero => rcases layer with _ | ⟨_, _ | ⟨_, _⟩⟩ <;> rfl
  | succ rounds ih =>
    rcases layer with _ | ⟨left, _ | ⟨right, rest⟩⟩
    · rfl
    · rfl
    · rw [mergeLayers, ih, mergePairs_eq, Merkle.collapse_cons_cons]
      all_goals simp

theorem root_txTree {txs : List Transaction} (occupied : txs ≠ []) :
    (txTree V txs).root (leafHash V) (internalHash V) = merkleRoot V txs := by
  have someLeaves : (txids V txs).map Merkle.Tree.leaf ≠ [] := by
    rw [txids]
    simpa using occupied
  have collapsed : Merkle.Tree.root (leafHash V) (internalHash V) (txTree V txs) =
      Merkle.collapse (fun last => internalHash V last last) (internalHash V) zeroHash txs.length
        (((txids V txs).map Merkle.Tree.leaf).map
          (Merkle.Tree.root (leafHash V) (internalHash V))) :=
    Merkle.collapse_map (Merkle.Tree.root (leafHash V) (internalHash V)) (fun _ => rfl)
      (fun _ _ => rfl) someLeaves txs.length
  rw [collapsed, merkleRoot, mergeLayers_eq, txids, List.map_map, List.map_map]
  rfl

/-! ## The root determines the ids -/

theorem perfect_leaves {ids : List Hash} :
    ∀ tree ∈ ids.map Merkle.Tree.leaf, tree.Perfect 0 := by
  intro tree member
  obtain ⟨id, -, rfl⟩ := List.mem_map.mp member
  exact trivial

theorem leaf_injective : Function.Injective (Merkle.Tree.leaf (γ := Hash)) :=
  fun _ _ same => Merkle.Tree.leaf.inj same

theorem txids_eq_of_txTree {txs txs' : List Transaction} (occupied : txs ≠ [])
    (occupied' : txs' ≠ []) (distinct : (txids V txs).Nodup) (distinct' : (txids V txs').Nodup)
    (same : txTree V txs = txTree V txs') : txids V txs = txids V txs' := by
  have leaves : (txids V txs).map Merkle.Tree.leaf = (txids V txs').map Merkle.Tree.leaf := by
    apply Merkle.doubled_inj _ _ _ _ perfect_leaves perfect_leaves _ _ same
    · rw [txids]
      simpa using occupied
    · rw [txids]
      simpa using occupied'
    · rw [txids, List.length_map, List.length_map]
      exact Nat.le_succ _
    · rw [txids, List.length_map, List.length_map]
      exact Nat.le_succ _
    · exact distinct.map leaf_injective
    · exact distinct'.map leaf_injective
  exact List.map_injective_iff.mpr leaf_injective leaves

theorem txids_eq_of_merkleRoot (width : ∀ data, (V.blake2b data).length = 32)
    {txs txs' : List Transaction} (occupied : txs ≠ []) (occupied' : txs' ≠ [])
    (distinct : (txids V txs).Nodup) (distinct' : (txids V txs').Nodup)
    (collisionFree : CollisionFree V (merkleStrings V txs ++ merkleStrings V txs'))
    (same : merkleRoot V txs = merkleRoot V txs') : txids V txs = txids V txs' := by
  apply txids_eq_of_txTree occupied occupied' distinct distinct'
  rw [← root_txTree occupied, ← root_txTree occupied'] at same
  apply Merkle.Tree.root_inj collisionFree.injOn _ _ same
  · intro input member
    refine ⟨List.mem_append_left _ (List.mem_map_of_mem member), ?_⟩
    exact framed_inputs width _ input member
  · intro input member
    refine ⟨List.mem_append_right _ (List.mem_map_of_mem member), ?_⟩
    exact framed_inputs width _ input member

theorem validateBlock_list {skip : Transaction → Bool} {now : Int} {L : Ledger} {b : Block}
    (accepted : validateBlockLocked V skip now L b = .ok ()) :
    b.txs ≠ [] ∧ (txids V b.txs).Nodup ∧ merkleRoot V b.txs = b.header.merkleRoot := by
  obtain ⟨-, _, _, head, body, -, root, -⟩ := validateBlock_body.mp accepted
  unfold checkBody at body
  obtain ⟨_, listed, -⟩ := bind_ok.mp body
  exact ⟨List.ne_nil_of_mem (List.mem_of_mem_head? head), checkTxList_distinct listed, root⟩

/-- **The root determines the ids.** Two lists of transactions without a repeated id, and
so two blocks that pass validation in any state, have the same Merkle root only with the
same ids in the same order. -/
theorem merkleRoot_determines_txids (width : ∀ data, (V.blake2b data).length = 32) :
    (∀ txs txs' : List Transaction, txs ≠ [] → txs' ≠ [] →
      (txids V txs).Nodup → (txids V txs').Nodup →
      CollisionFree V (merkleStrings V txs ++ merkleStrings V txs') →
      merkleRoot V txs = merkleRoot V txs' → txids V txs = txids V txs') ∧
    (∀ (skip skip' : Transaction → Bool) (now now' : Int) (L L' : Ledger) (b b' : Block),
      validateBlockLocked V skip now L b = .ok () →
      validateBlockLocked V skip' now' L' b' = .ok () →
      CollisionFree V (merkleStrings V b.txs ++ merkleStrings V b'.txs) →
      b.header.merkleRoot = b'.header.merkleRoot → txids V b.txs = txids V b'.txs) := by
  refine ⟨fun _ _ => txids_eq_of_merkleRoot width, ?_⟩
  intro skip skip' now now' L L' b b' accepted accepted' collisionFree same
  obtain ⟨occupied, distinct, root⟩ := validateBlock_list accepted
  obtain ⟨occupied', distinct', root'⟩ := validateBlock_list accepted'
  apply txids_eq_of_merkleRoot width occupied occupied' distinct distinct' collisionFree
  rw [root, root', same]

open Testnet in
/-- The roots of three and of four coinbases, and an empty block over genesis. -/
theorem merkleRoot_separates :
    merkleRoot (primitives checksum) [payout 1 0 0, payout 2 0 0, payout 3 0 0] ≠
        merkleRoot (primitives checksum) [payout 1 0 0, payout 2 0 0, payout 3 0 0, payout 4 0 0] ∧
      txids (primitives checksum) (mine checksum 1 []).txs =
        txids (primitives checksum) (mine checksum 1 []).txs := by
  have laws := merkleRoot_determines_txids (V := primitives checksum) checksum_length
  constructor
  · intro same
    have ids := laws.1 [payout 1 0 0, payout 2 0 0, payout 3 0 0]
      [payout 1 0 0, payout 2 0 0, payout 3 0 0, payout 4 0 0] (by simp) (by simp)
      (by decide +kernel) (by decide +kernel) (by decide +kernel) same
    exact absurd (congrArg List.length ids) (by decide)
  · have idle := idle_mined checksum_length [] (by decide)
    obtain ⟨now, accepted⟩ := mine_verified idle checksum_length (by decide) 1
    refine laws.2 _ _ _ _ _ _ _ _ accepted accepted ?_ rfl
    have lone : merkleStrings (primitives checksum) (mine checksum 1 []).txs ++
        merkleStrings (primitives checksum) (mine checksum 1 []).txs =
      List.replicate 2 (0 :: (payout 1 1 (reward (replay (primitives checksum) []))).hash
        (primitives checksum)) := rfl
    rw [lone]
    intro first member second member' _
    rw [List.eq_of_mem_replicate member, List.eq_of_mem_replicate member']

/-! ## Retrievability proofs -/

/-- A step as a sibling and the side it is on. -/
def MerkleStep.side (step : MerkleStep) : Hash × Bool := (step.hash, !step.right)

/-- The check climbs the path. -/
theorem verifyMerkleProof_eq (txid : Hash) (steps : List MerkleStep) (root : Hash) :
    verifyMerkleProof V txid steps root = true ↔
      Frontier.opens (internalHash V) (leafHash V txid) (steps.map MerkleStep.side) = root := by
  have folded : ∀ node : Hash, steps.foldl (fun node step =>
      if step.right then internalHash V node step.hash else internalHash V step.hash node) node =
      Frontier.opens (internalHash V) node (steps.map MerkleStep.side) := by
    induction steps with
    | nil => exact fun _ => rfl
    | cons step steps ih =>
      intro node
      rw [List.foldl_cons, ih]
      cases sided : step.right <;> simp [Frontier.opens, MerkleStep.side, sided]
  rw [verifyMerkleProof, folded, beq_iff_eq]

theorem position_of_singleton {top node : Hash} {pos : Nat} (here : [top][pos]? = some node) :
    node = top ∧ pos = 0 := by
  cases pos with
  | zero => exact ⟨(Option.some.inj here).symm, rfl⟩
  | succ pos => exact nomatch here

/-- **The branch.** It leads from its node to the root, and its sides are the bits of the
position. -/
theorem branchFrom_spec {layer : List Hash} {node : Hash} {rounds pos : Nat}
    (enough : layer.length ≤ rounds + 1) (here : layer[pos]? = some node) :
    Frontier.opens (internalHash V) node ((branchFrom V rounds layer pos).map MerkleStep.side) =
        mergeLayers V rounds layer ∧
      (branchFrom V rounds layer pos).map (fun step => !step.right) =
        Merkle.positionBits (Nat.clog 2 layer.length) pos := by
  induction rounds generalizing layer node pos with
  | zero =>
    match layer with
    | [] => exact nomatch here
    | [top] =>
      obtain ⟨rfl, rfl⟩ := position_of_singleton here
      rw [List.length_singleton, Nat.clog_one_right]
      exact ⟨rfl, rfl⟩
    | _ :: _ :: _ =>
      rw [List.length_cons, List.length_cons] at enough
      omega
  | succ rounds ih =>
    match layer with
    | [] => exact nomatch here
    | [top] =>
      obtain ⟨rfl, rfl⟩ := position_of_singleton here
      rw [List.length_singleton, Nat.clog_one_right]
      exact ⟨rfl, rfl⟩
    | left :: right :: rest =>
      have several : ¬(left :: right :: rest).length ≤ 1 := by
        rw [List.length_cons, List.length_cons]
        omega
      have bits : Merkle.positionBits (Nat.clog 2 (left :: right :: rest).length) pos =
          decide (pos % 2 = 1) :: Merkle.positionBits
            (Nat.clog 2 (((left :: right :: rest).length + 1) / 2)) (pos / 2) := by
        rw [Merkle.clog_cons_cons]
        rfl
      have merged : mergeLayers V (rounds + 1) (left :: right :: rest) =
          mergeLayers V rounds (mergePairs V (left :: right :: rest)) := rfl
      rw [merged, bits, branchFrom, if_neg several]
      generalize left :: right :: rest = layer at enough here several ⊢
      have length : (mergePairs V layer).length = (layer.length + 1) / 2 := by
        rw [mergePairs_eq, Merkle.length_levelUp]
      have enough' : (mergePairs V layer).length ≤ rounds + 1 := by
        rw [length]
        omega
      have parent := @Merkle.getElem?_levelUp _ (fun last => internalHash V last last)
        (internalHash V) layer (pos / 2)
      rw [← mergePairs_eq] at parent
      rw [← length]
      have inside := (List.getElem?_eq_some_iff.mp here).1
      rcases Nat.mod_two_eq_zero_or_one pos with even | odd
      · have place : 2 * (pos / 2) = pos := by omega
        rw [place, here, Option.map_some] at parent
        obtain ⟨opened, sides⟩ := ih enough' parent
        rw [List.map_cons, List.map_cons, sides, even, ← opened]
        refine ⟨?_, by simp⟩
        cases layer[pos + 1]? <;> simp [Frontier.opens, MerkleStep.side, here]
      · have place : 2 * (pos / 2) + 1 = pos := by omega
        have left : 2 * (pos / 2) = pos - 1 := by omega
        have before : pos - 1 < layer.length := by omega
        rw [left, List.getElem?_eq_getElem before, Option.map_some,
          Nat.sub_add_cancel (by omega), here] at parent
        obtain ⟨opened, sides⟩ := ih enough' parent
        rw [List.map_cons, List.map_cons, sides, odd, ← opened]
        refine ⟨?_, by simp⟩
        simp [Frontier.opens, MerkleStep.side, List.getElem?_eq_getElem before]

/-- The index a branch addresses is the position of its sides, below the 64th level. -/
theorem indexFromSteps_eq {steps : List MerkleStep} {pos : Nat}
    (sides : steps.map (fun step => !step.right) = Merkle.positionBits steps.length pos)
    (inside : pos < 2 ^ steps.length) (word : pos < 2 ^ 64) : indexFromSteps steps = pos := by
  have general : ∀ (steps : List MerkleStep) (pos level : Nat),
      steps.map (fun step => !step.right) = Merkle.positionBits steps.length pos →
      pos < 2 ^ steps.length → pos * 2 ^ level < 2 ^ 64 →
      ((steps.zipIdx level).map fun entry =>
        if entry.1.right ∨ 64 ≤ entry.2 then 0 else 2 ^ entry.2).sum = pos * 2 ^ level := by
    intro steps
    induction steps with
    | nil =>
      intro pos level _ inside _
      obtain rfl : pos = 0 := Nat.lt_one_iff.mp inside
      simp
    | cons step steps ih =>
      intro pos level sides inside word
      rw [List.length_cons] at sides inside
      rw [List.map_cons, Merkle.positionBits] at sides
      obtain ⟨first, rest⟩ := List.cons.inj sides
      rw [Nat.pow_succ] at inside
      have halves : pos = 2 * (pos / 2) + pos % 2 := (Nat.div_add_mod pos 2).symm
      have power : 2 ^ (level + 1) = 2 * 2 ^ level := Nat.pow_succ'
      have product : pos / 2 * 2 ^ (level + 1) = 2 * (pos / 2) * 2 ^ level := by
        rw [power]
        ring
      have above := ih (pos / 2) (level + 1) rest (by omega) (by
        rw [product]
        exact lt_of_le_of_lt (Nat.mul_le_mul_right _ (by omega)) word)
      rw [List.zipIdx_cons, List.map_cons, List.sum_cons, above, product]
      change (if step.right ∨ 64 ≤ level then 0 else 2 ^ level) + _ = _
      rcases Nat.mod_two_eq_zero_or_one pos with even | odd
      · have right : step.right = true := by simpa [even] using first
        have whole : 2 * (pos / 2) = pos := by omega
        rw [if_pos (Or.inl right), Nat.zero_add, whole]
      · have left : step.right = false := by simpa [odd] using first
        have low : level < 64 := by
          have least : 1 * 2 ^ level ≤ pos * 2 ^ level := Nat.mul_le_mul_right _ (by omega)
          rw [Nat.one_mul] at least
          exact (Nat.pow_lt_pow_iff_right Nat.one_lt_two).mp (lt_of_le_of_lt least word)
        have bit : ¬(step.right = true ∨ 64 ≤ level) := by
          rw [left]
          simpa using low
        have whole : 2 * (pos / 2) + 1 = pos := by omega
        rw [if_neg bit]
        calc 2 ^ level + 2 * (pos / 2) * 2 ^ level = (2 * (pos / 2) + 1) * 2 ^ level := by ring
          _ = pos * 2 ^ level := by rw [whole]
  have start := general steps pos 0 sides inside (by simpa using word)
  rw [Nat.pow_zero, Nat.mul_one] at start
  exact start

/-- The strings hashed to check an entry. -/
def porStrings (V : Primitives) (entry : PoREntry) : List Bytes :=
  entry.txBytes :: (Merkle.openInputs (leafHash V) (internalHash V) (V.blake2b entry.txBytes)
    (entry.steps.map MerkleStep.side)).map hashString

theorem clog_le_of_int {txs : List Transaction} (int : txs.length < 2 ^ 63) :
    Nat.clog 2 txs.length ≤ 63 := Nat.clog_le_of_le_pow int.le

/-- An accepted branch descends to its leaf. -/
theorem descend_of_verified (width : ∀ data, (V.blake2b data).length = 32)
    {txs : List Transaction} {entry : PoREntry} (occupied : txs ≠ [])
    (typed : ∀ step ∈ entry.steps, step.hash.length = 32)
    (collisionFree : CollisionFree V (merkleStrings V txs ++ porStrings V entry))
    (verified : verifyMerkleProof V (V.blake2b entry.txBytes) entry.steps (merkleRoot V txs) =
      true) :
    (txTree V txs).descend (entry.steps.map fun step => !step.right).reverse =
      some (.leaf (V.blake2b entry.txBytes)) := by
  have opened := (verifyMerkleProof_eq _ _ _).mp verified
  rw [← root_txTree occupied] at opened
  have siblings : ∀ step ∈ entry.steps.map MerkleStep.side, step.1.length = 32 := by
    intro side member
    obtain ⟨step, inSteps, rfl⟩ := List.mem_map.mp member
    exact typed step inSteps
  have turns : (entry.steps.map MerkleStep.side).map Prod.snd =
      entry.steps.map fun step => !step.right := by
    rw [List.map_map]
    rfl
  rw [← turns]
  apply Merkle.Tree.descend_of_opens collisionFree.injOn _ _ opened
  · intro input member
    refine ⟨List.mem_append_left _ (List.mem_map_of_mem member), ?_⟩
    exact framed_inputs width _ input member
  · intro input member
    refine ⟨List.mem_append_right _ (List.mem_cons_of_mem _ (List.mem_map_of_mem member)), ?_⟩
    exact framed_open width siblings _ input member

theorem descend_txTree {txs : List Transaction} {t : Transaction} {index : Nat}
    (here : txs[index]? = some t) :
    (txTree V txs).descend
      (Merkle.positionBits (Nat.clog 2 txs.length) index).reverse = some (.leaf (t.hash V)) := by
  have length : ((txids V txs).map Merkle.Tree.leaf).length = txs.length := by
    rw [txids, List.length_map, List.length_map]
  rw [← length, txTree]
  apply Merkle.descend_doubled (by rw [length]; exact Nat.le_succ _)
  rw [txids, List.getElem?_map, List.getElem?_map, here]
  rfl

/-- **Retrievability proofs.** The branch of every transaction is accepted and addresses
its position; and an entry accepted against the header of a block carries the challenged
transaction. -/
theorem porEntry_complete_sound (width : ∀ data, (V.blake2b data).length = 32) :
    (∀ (txs : List Transaction) (index : Nat) (inside : index < txs.length),
      txs.length < 2 ^ 63 → ∃ steps, merkleProof V txs index = some steps ∧
        verifyMerkleProof V (txs[index].hash V) steps (merkleRoot V txs) = true ∧
        indexFromSteps steps = index) ∧
    (∀ (b : Block) (entry : PoREntry) (height index : Nat) (inside : index < b.txs.length),
      b.txs.length < 2 ^ 63 → merkleRoot V b.txs = b.header.merkleRoot →
      (∀ step ∈ entry.steps, step.hash.length = 32) →
      CollisionFree V (merkleStrings V b.txs ++ porStrings V entry ++
        [b.txs[index].serialize]) →
      verifyPoREntry V entry height index b.header.merkleRoot = true →
      entry.txBytes = b.txs[index].serialize) := by
  constructor
  · intro txs index inside int
    have length : (txs.map fun t => leafHash V (t.hash V)).length = txs.length :=
      List.length_map _
    have here : (txs.map fun t => leafHash V (t.hash V))[index]? =
        some (leafHash V (txs[index].hash V)) := by
      rw [List.getElem?_map, List.getElem?_eq_getElem inside]
      rfl
    obtain ⟨opened, sides⟩ := @branchFrom_spec V _ _ txs.length _
      (by rw [length]; exact Nat.le_succ _) here
    have levels : (branchFrom V txs.length (txs.map fun t => leafHash V (t.hash V)) index).length =
        Nat.clog 2 txs.length := by
      rw [length] at sides
      have counted := congrArg List.length sides
      rwa [List.length_map, Merkle.length_positionBits] at counted
    refine ⟨_, if_pos inside, (verifyMerkleProof_eq _ _ _).mpr opened, ?_⟩
    apply indexFromSteps_eq
    · rw [sides, levels, length]
    · rw [levels]
      exact lt_of_lt_of_le inside (Nat.le_pow_clog Nat.one_lt_two _)
    · omega
  · intro b entry height index inside int root typed collisionFree accepted
    rw [verifyPoREntry, Bool.and_eq_true, Bool.and_eq_true, beq_iff_eq, beq_iff_eq, ← root]
      at accepted
    obtain ⟨⟨-, addressed⟩, verified⟩ := accepted
    have occupied : b.txs ≠ [] := by
      intro empty
      rw [empty] at inside
      exact absurd inside (Nat.not_lt_zero _)
    have reached := descend_of_verified width occupied typed
      (fun first member second member' => collisionFree first (List.mem_append_left _ member)
        second (List.mem_append_left _ member')) verified
    have perfect : (txTree V b.txs).Perfect (0 + Nat.clog 2 ((txids V b.txs).map
        Merkle.Tree.leaf).length) := by
      apply Merkle.perfect_doubled _ _ perfect_leaves
      · rw [txids]
        simpa using occupied
      · rw [txids, List.length_map, List.length_map]
        exact Nat.le_succ _
    have levels := perfect.turns reached
    rw [txids, List.length_map, List.length_map, List.length_reverse, List.length_map,
      Nat.zero_add] at levels
    obtain ⟨position, within, bits⟩ :=
      Merkle.exists_position (entry.steps.map fun step => !step.right)
    rw [List.length_map] at within bits
    have word : position < 2 ^ 64 := by
      apply lt_of_lt_of_le within
      rw [levels]
      exact Nat.pow_le_pow_right Nat.two_pos ((clog_le_of_int int).trans (by omega))
    have index_eq := indexFromSteps_eq bits.symm within word
    rw [addressed] at index_eq
    rw [← bits, ← index_eq, levels,
      descend_txTree (List.getElem?_eq_getElem inside)] at reached
    have ids : b.txs[index].hash V = V.blake2b entry.txBytes :=
      Merkle.Tree.leaf.inj (Option.some.inj reached)
    apply collisionFree _ _ _ _ ids.symm
    · apply List.mem_append_left
      exact List.mem_append_right _ List.mem_cons_self
    · exact List.mem_append_right _ (List.mem_singleton_self _)

open Testnet in
/-- The second of three coinbases, proved and answered. -/
theorem porEntry_second :
    (∃ steps, merkleProof (primitives checksum) [payout 1 0 0, payout 2 0 0, payout 3 0 0] 1 =
        some steps ∧
      verifyMerkleProof (primitives checksum) ((payout 2 0 0).hash (primitives checksum)) steps
        (merkleRoot (primitives checksum) [payout 1 0 0, payout 2 0 0, payout 3 0 0]) = true ∧
      indexFromSteps steps = 1) ∧
    (payout 2 0 0).serialize = (payout 2 0 0).serialize := by
  have laws := porEntry_complete_sound (V := primitives checksum) checksum_length
  refine ⟨laws.1 [payout 1 0 0, payout 2 0 0, payout 3 0 0] 1 (by decide) (by decide), ?_⟩
  exact laws.2
    { header := { (mine checksum 1 []).header with
        merkleRoot := merkleRoot (primitives checksum)
          [payout 1 0 0, payout 2 0 0, payout 3 0 0] }
      txs := [payout 1 0 0, payout 2 0 0, payout 3 0 0] }
    { height := 7
      txBytes := (payout 2 0 0).serialize
      steps := branchFrom (primitives checksum) 3
        ([payout 1 0 0, payout 2 0 0, payout 3 0 0].map fun t =>
          leafHash (primitives checksum) (t.hash (primitives checksum))) 1 }
    7 1 (by decide) (by decide) rfl (by decide +kernel) (by decide +kernel) (by decide +kernel)

end Tree

end Obscura
