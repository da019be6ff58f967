import Obscura.EpochPaths
import Obscura.SnapshotSync

/-! # Witnesses after a restore

A node writes out the frontier, the root and the count of every epoch tree, without the
leaves, and a restart reads them back. The leaves it appends from then on are kept from
position zero again, while the count goes on from where it was. So a run of appends and
restores leads to the trees of the leaves, with those before the last restore forgotten
(`run_forgets`), and a witness is looked up at positions that no longer fit the tree
(`witnessSound_iff`).
-/

namespace Obscura

open Wire

/-! ## The format -/

/-- The state of one tree: depth, count, root and the frontier. -/
def IMT256.marshalState (t : IMT256) : Bytes :=
  bigEndian 4 t.depth ++ bigEndian 8 t.count ++ t.root ++ t.filled.flatten

/-- A tree behind its length. -/
def IMT256.part (t : IMT256) : Bytes :=
  bigEndian 4 t.marshalState.length ++ t.marshalState

/-- The finalized trees and the current one. -/
def EpochIMT.trees (e : EpochIMT) : List IMT256 := e.finalized ++ [e.current]

/-- The number of trees and each tree behind its length. -/
def EpochIMT.marshalState (e : EpochIMT) : Bytes :=
  bigEndian 4 e.trees.length ++ e.trees.flatMap IMT256.part

/-- A tree whose fields have the widths of the format. -/
structure IMT256.Encodable (t : IMT256) (depth : Nat) : Prop where
  deep : t.depth = depth
  count : t.count ≤ 2 ^ depth
  levels : t.filled.length = depth
  root : t.root.length = 32
  filled : ∀ node ∈ t.filled, node.length = 32

/-- Nodes of 32 bytes are told apart in a row. -/
theorem flatten_part {nodes : List Node} (wide : ∀ node ∈ nodes, node.length = 32) :
    nodes.flatten.length = 32 * nodes.length ∧
      (List.range nodes.length).map (fun k => (nodes.flatten.drop (32 * k)).take 32) = nodes := by
  induction nodes with
  | nil => exact ⟨rfl, rfl⟩
  | cons node nodes ih =>
    have first := wide node List.mem_cons_self
    obtain ⟨length, parts⟩ := ih fun node member => wide node (List.mem_cons_of_mem _ member)
    constructor
    · rw [List.flatten_cons, List.length_append, first, length, List.length_cons]
      omega
    · rw [List.length_cons, List.range_succ_eq_map, List.map_cons, List.map_map,
        List.flatten_cons, Nat.mul_zero, List.drop_zero, List.take_left' first]
      congr 1
      refine Eq.trans (List.map_congr_left ?_) parts
      intro k _
      have beyond : 32 * (k + 1) = node.length + 32 * k := by
        rw [first]
        ring
      change ((node ++ nodes.flatten).drop (32 * (k + 1))).take 32 = _
      rw [beyond, List.drop_length_add_append]

namespace IMT256.Encodable

variable {t : IMT256} {depth : Nat}

theorem length_marshalState (encodable : t.Encodable depth) :
    t.marshalState.length = 4 + 8 + 32 + depth * 32 := by
  have frontier := (flatten_part encodable.filled).1
  rw [encodable.levels] at frontier
  rw [IMT256.marshalState, List.length_append, List.length_append, List.length_append,
    length_bigEndian, length_bigEndian, encodable.root, frontier, Nat.mul_comm 32]

/-- What was written is read back, unless the depth is zero. -/
theorem loadIMT256State (encodable : t.Encodable depth) (word : depth < 64) :
    loadIMT256State t.marshalState = if depth = 0 then none else some t := by
  have length := encodable.length_marshalState
  have parts := (flatten_part encodable.filled).2
  have dimension : ofBigEndian (t.marshalState.take 4) = depth := by
    rw [IMT256.marshalState, List.append_assoc, List.append_assoc,
      List.take_left' (length_bigEndian 4 _), ofBigEndian_bigEndian, encodable.deep,
      Nat.mod_eq_of_lt (by omega)]
  have count : ofBigEndian ((t.marshalState.drop 4).take 8) = t.count := by
    have small : t.count < 256 ^ 8 :=
      lt_of_le_of_lt encodable.count
        ((Nat.pow_lt_pow_right (by omega) word).trans_eq (by norm_num))
    rw [IMT256.marshalState, List.append_assoc, List.append_assoc,
      List.drop_left' (length_bigEndian 4 _), List.take_left' (length_bigEndian 8 _),
      ofBigEndian_bigEndian, Nat.mod_eq_of_lt small]
  have beyond : t.marshalState.drop 12 = t.root ++ t.filled.flatten := by
    rw [IMT256.marshalState, List.append_assoc]
    apply List.drop_left'
    rw [List.length_append, length_bigEndian, length_bigEndian]
  have root : (t.marshalState.drop 12).take 32 = t.root := by
    rw [beyond, List.take_left' encodable.root]
  have frontier : (List.range depth).map
      (fun k => (t.marshalState.drop (44 + 32 * k)).take 32) = t.filled := by
    rw [encodable.levels] at parts
    refine Eq.trans (List.map_congr_left ?_) parts
    intro k _
    have after : 44 + 32 * k = 12 + (32 + 32 * k) := by omega
    rw [after, ← List.drop_drop, beyond, ← encodable.root, List.drop_length_add_append]
  unfold Obscura.loadIMT256State
  rw [dimension, length]
  by_cases flat : depth = 0
  · rw [if_pos flat, if_pos (Or.inr (Or.inl flat))]
  · rw [if_neg flat, if_neg (by omega), count, root, frontier]
    congr 1
    rw [IMT256.mk.injEq]
    exact ⟨encodable.deep.symm, rfl, rfl, rfl⟩

end IMT256.Encodable

/-- Some of the trees that were written one after the other are read back. -/
theorem loadTrees_part {trees : List IMT256} {depth n : Nat} (word : depth < 64)
    (encodable : ∀ t ∈ trees, t.Encodable depth) (enough : n ≤ trees.length) :
    loadTrees n (trees.flatMap IMT256.part) =
      if n ≠ 0 ∧ depth = 0 then none else some (trees.take n) := by
  induction n generalizing trees with
  | zero => rfl
  | succ n ih =>
    cases trees with
    | nil => exact absurd enough (by simp)
    | cons t trees =>
      have here := encodable t List.mem_cons_self
      have length := here.length_marshalState
      have announced : ofBigEndian (bigEndian 4 t.marshalState.length) =
          t.marshalState.length := by
        rw [ofBigEndian_bigEndian, Nat.mod_eq_of_lt (by omega)]
      have rest := ih (fun t member => encodable t (List.mem_cons_of_mem _ member))
        (Nat.le_of_succ_le_succ enough)
      have l : ofBigEndian (((t :: trees).flatMap IMT256.part).take 4) =
          t.marshalState.length := by
        rw [List.flatMap_cons, IMT256.part, List.append_assoc,
          List.take_left' (length_bigEndian 4 _), announced]
      have total : 4 + t.marshalState.length ≤ ((t :: trees).flatMap IMT256.part).length := by
        rw [List.flatMap_cons, IMT256.part, List.length_append, List.length_append,
          length_bigEndian]
        omega
      have first : (((t :: trees).flatMap IMT256.part).drop 4).take t.marshalState.length =
          t.marshalState := by
        rw [List.flatMap_cons, IMT256.part, List.append_assoc,
          List.drop_left' (length_bigEndian 4 _), List.take_left' rfl]
      have others : ((t :: trees).flatMap IMT256.part).drop (4 + t.marshalState.length) =
          trees.flatMap IMT256.part := by
        rw [List.flatMap_cons]
        apply List.drop_left'
        rw [IMT256.part, List.length_append, length_bigEndian]
      rw [loadTrees, l, if_neg (by omega), first, others, here.loadIMT256State word, rest]
      by_cases flat : depth = 0
      · rw [if_pos flat]
        exact (if_pos ⟨Nat.succ_ne_zero n, flat⟩).symm
      · rw [if_neg flat, if_neg (fun both => flat both.2), if_neg (fun both => flat both.2)]
        rfl

theorem EpochIMT.ext_trees {e e' : EpochIMT} (depth : e.depth = e'.depth)
    (trees : e.trees = e'.trees) : e = e' := by
  obtain ⟨finalized, current⟩ := List.append_inj' trees rfl
  cases e
  cases e'
  cases depth
  cases finalized
  cases current
  rfl

theorem EpochIMT.of_load {e e' : EpochIMT} (word : e.depth < 64)
    (encodable : ∀ t ∈ e.trees, t.Encodable e.depth)
    (loaded : loadEpochIMTState e.marshalState = some e') :
    ∃ n, 0 < n ∧ (n = e.trees.length ∨ n < e.trees.length ∧ 2 ≤ e.trees.length) ∧
      0 < e.depth ∧ e'.depth = e.depth ∧ e'.trees = e.trees.take n := by
  have announced : ofBigEndian (e.marshalState.take 4) = e.trees.length % 256 ^ 4 := by
    rw [EpochIMT.marshalState, List.take_left' (length_bigEndian 4 _), ofBigEndian_bigEndian]
  have rest : e.marshalState.drop 4 = e.trees.flatMap IMT256.part := by
    rw [EpochIMT.marshalState, List.drop_left' (length_bigEndian 4 _)]
  have few : e.trees.length % 256 ^ 4 ≤ e.trees.length := Nat.mod_le _ _
  have read := loadTrees_part word encodable few
  rw [loadEpochIMTState, announced, rest] at loaded
  generalize e.trees.length % 256 ^ 4 = n at few read loaded
  split_ifs at loaded with refused
  · exact nomatch loaded
  rw [read] at loaded
  have some : n ≠ 0 := fun none => refused (Or.inr (Or.inl none))
  by_cases flat : e.depth = 0
  · rw [if_pos ⟨some, flat⟩] at loaded
    exact nomatch loaded
  rw [if_neg (fun both => flat both.2)] at loaded
  have within : 0 < e.trees.length := by
    rw [EpochIMT.trees, List.length_append, List.length_singleton]
    omega
  obtain ⟨first, tail, taken⟩ := List.exists_cons_of_length_pos
    (l := e.trees.take n) (by rw [List.length_take]; omega)
  have nonempty : e.trees.take n ≠ [] := by
    rw [taken]
    exact List.cons_ne_nil _ _
  have head : (e.trees.take n).head? = Option.some first := by rw [taken, List.head?_cons]
  have deep : first.depth = e.depth :=
    (encodable first (List.mem_of_mem_take (List.mem_of_mem_head? head))).deep
  refine ⟨n, Nat.pos_of_ne_zero some, by omega, Nat.pos_of_ne_zero flat, ?_⟩
  simp only [Option.bind_eq_bind, Option.bind_some, List.getLast?_eq_some_getLast nonempty, head,
    Option.pure_def] at loaded
  obtain rfl := Option.some.inj loaded
  exact ⟨deep, List.dropLast_append_getLast nonempty⟩

/-! ## Looking a witness up -/

variable (V : Primitives)

namespace PoseidonIMT256

/-- A leaf that is not kept reads as zero. -/
def leafAt (t : PoseidonIMT256) (i : Nat) : Node := t.leaves[i]?.getD zeroHash

/-- The subtree root as the code computes it; `none` when a leaf is read past the kept ones. -/
def subtreeHash? (t : PoseidonIMT256) : (level base : Nat) → Option Node
  | 0, base => if base < t.count then t.leaves[base]? else some (zeroRoot V 0)
  | level + 1, base =>
    if t.count ≤ base then
      some (zeroRoot V (level + 1))
    else do
      let left ← subtreeHash? t level base
      let right ← subtreeHash? t level (base + 2 ^ level)
      pure (V.wideHash2 left right)

/-- The path, unless the code leaves its arrays. -/
def pathFor? (t : PoseidonIMT256) (i : Nat) : Option MerklePath256 := do
  let siblings ← (List.range t.depth).mapM fun k =>
    t.subtreeHash? V k (((i >>> k) ^^^ 1) <<< k)
  pure { index := i, siblings }

end PoseidonIMT256

deriving instance DecidableEq for MerklePath256

/-- What a witness lookup comes to. -/
inductive Lookup where
  | notFound
  | outOfRange
  | found (anchor : Node) (path : MerklePath256)
deriving DecidableEq

namespace PoseidonEpochIMT

/-- The first place of a leaf across all epochs, by the counts of the trees. -/
def find (e : PoseidonEpochIMT) (leaf : Node) : Option (Nat × Nat) :=
  e.trees.zipIdx.findSome? fun (t, epoch) =>
    ((List.range t.count).find? fun i => t.leafAt i == leaf).map fun i => (epoch, i)

/-- What a wallet gets that asks for a leaf: a path or an error. -/
def zkWitnessFor (e : PoseidonEpochIMT) (leaf : Bytes) : Lookup :=
  match parseNode leaf with
  | none => .notFound
  | some n =>
    match e.find n with
    | none => .notFound
    | some (epoch, index) =>
      match e.trees[epoch]? with
      | none => .notFound
      | some t =>
        match t.pathFor? V index with
        | none => .outOfRange
        | some path => .found t.root path

/-- No lookup reads out of range, and a path that is found leads to the root of the epoch the
leaf was found in. -/
def WitnessSound (e : PoseidonEpochIMT) : Prop :=
  ∀ leaf, e.zkWitnessFor V leaf ≠ .outOfRange ∧
    ∀ anchor path, e.zkWitnessFor V leaf = .found anchor path →
      verifyPath256 V anchor leaf path = true ∧
      ∃ epoch index, e.find leaf = some (epoch, index) ∧ e.rootAt epoch = some anchor

/-! ## Restarting -/

/-- The trees of a node that starts from a stored state: no leaf is kept. -/
def ofNodeSide (e : EpochIMT) : PoseidonEpochIMT where
  depth := e.depth
  finalized := e.finalized.map fun t => { t with leaves := [] }
  current := { e.current with leaves := [] }

/-- Write the state out and read it back. -/
def restore (e : PoseidonEpochIMT) : Option PoseidonEpochIMT :=
  (loadEpochIMTState e.nodeSide.marshalState).map ofNodeSide

end PoseidonEpochIMT

/-- A leaf comes in, or the node restarts from its snapshot. -/
inductive EpochOp where
  | append (leaf : Node)
  | restore

namespace PoseidonEpochIMT

/-- One operation; a restore may fail. -/
def apply (e : PoseidonEpochIMT) : EpochOp → Option PoseidonEpochIMT
  | .append leaf => some (e.append V leaf).1
  | .restore => e.restore

/-- The trees after some operations on empty ones, when every stored state was read back. -/
def run (depth : Nat) (ops : List EpochOp) : Option PoseidonEpochIMT :=
  ops.foldlM (apply V) (new V depth)

end PoseidonEpochIMT

/-- The leaves that are appended. -/
def leavesOf (ops : List EpochOp) : List Node :=
  ops.filterMap fun
    | .append leaf => some leaf
    | .restore => none

/-- No leaf is appended before a restore. -/
def Undisturbed (ops : List EpochOp) : Prop :=
  ∀ before after, ops = before ++ .restore :: after → leavesOf before = []

/-! ## Reads -/

theorem answers_of_mapM {α β : Type} {f : α → Option β} {values : List α} {results : List β}
    (run : values.mapM f = some results) {value : α} (member : value ∈ values) :
    ∃ result, f value = some result := by
  induction values generalizing results with
  | nil => exact nomatch member
  | cons first values ih =>
    rw [List.mapM_cons] at run
    obtain ⟨result, answered, run⟩ := Option.bind_eq_some_iff.mp run
    obtain ⟨rest, run, -⟩ := Option.bind_eq_some_iff.mp run
    rcases List.mem_cons.mp member with rfl | later
    · exact ⟨result, answered⟩
    · exact ih run later

variable {V}

namespace PoseidonIMT256

theorem subtreeHash?_of_kept {t : PoseidonIMT256} (kept : t.count ≤ t.leaves.length)
    (level base : Nat) : t.subtreeHash? V level base = some (t.subtreeHash V level base) := by
  induction level generalizing base with
  | zero =>
    rw [subtreeHash?, subtreeHash]
    by_cases occupied : base < t.count
    · rw [if_pos occupied, if_pos occupied, List.getElem?_eq_getElem (by omega)]
      rfl
    · rw [if_neg occupied, if_neg occupied]
  | succ level ih =>
    rw [subtreeHash?, subtreeHash, ih, ih]
    by_cases free : t.count ≤ base
    · rw [if_pos free, if_pos free]
    · rw [if_neg free, if_neg free]
      rfl

theorem kept_of_subtreeHash? {t : PoseidonIMT256} {level base position : Nat} {node : Node}
    (answered : t.subtreeHash? V level base = some node) (from_base : base ≤ position)
    (below : position < base + 2 ^ level) (counted : position < t.count) :
    position < t.leaves.length := by
  induction level generalizing base node with
  | zero =>
    obtain rfl : position = base := by omega
    rw [subtreeHash?, if_pos counted] at answered
    exact (List.getElem?_eq_some_iff.mp answered).1
  | succ level ih =>
    rw [subtreeHash?, if_neg (by omega)] at answered
    obtain ⟨left, leftAnswered, answered⟩ := Option.bind_eq_some_iff.mp answered
    obtain ⟨right, rightAnswered, -⟩ := Option.bind_eq_some_iff.mp answered
    rw [Nat.pow_succ] at below
    rcases Nat.lt_or_ge position (base + 2 ^ level) with first | second
    · exact ih leftAnswered from_base first
    · exact ih rightAnswered second (by omega)

theorem pathFor?_of_kept {t : PoseidonIMT256} (kept : t.count ≤ t.leaves.length) (i : Nat) :
    t.pathFor? V i = some (t.pathFor V i) := by
  rw [pathFor?, pathFor]
  have answers : ((List.range t.depth).mapM fun k =>
      t.subtreeHash? V k (((i >>> k) ^^^ 1) <<< k)) =
      some ((List.range t.depth).map fun k =>
        t.subtreeHash V k (((i >>> k) ^^^ 1) <<< k)) := by
    simp only [subtreeHash?_of_kept kept]
    exact List.mapM_pure
  rw [answers]
  rfl

/-- The path of the first leaf reads every other one. -/
theorem kept_of_pathFor? {t : PoseidonIMT256} {path : MerklePath256} {position : Nat}
    (answered : t.pathFor? V 0 = some path) (later : 0 < position)
    (inside : position < 2 ^ t.depth) (counted : position < t.count) :
    position < t.leaves.length := by
  obtain ⟨siblings, answers, -⟩ := Option.bind_eq_some_iff.mp answered
  -- the sibling at the level of the highest bit of the position covers it
  have level : position.log2 < t.depth := (Nat.log2_lt (by omega)).mpr inside
  obtain ⟨node, read⟩ := answers_of_mapM answers (List.mem_range.mpr level)
  have base : ((0 >>> position.log2) ^^^ 1) <<< position.log2 = 2 ^ position.log2 := by
    rw [Nat.zero_shiftRight, Nat.zero_xor, Nat.one_shiftLeft]
  rw [base] at read
  have above := Nat.log2_self_le (n := position) (by omega)
  have below := Nat.lt_log2_self (n := position)
  rw [Nat.pow_succ] at below
  exact kept_of_subtreeHash? read above (by omega) counted

end PoseidonIMT256

/-! ## Forgetting leaves -/

/-- The tree without its first leaves. -/
def PoseidonIMT256.forget (t : PoseidonIMT256) (lost : Nat) : PoseidonIMT256 :=
  { t with leaves := t.leaves.drop lost }

namespace PoseidonEpochIMT

/-- The trees without the first leaves of the sequence. -/
def forget (e : PoseidonEpochIMT) (lost : Nat) : PoseidonEpochIMT :=
  { e with
    finalized := e.finalized.mapIdx fun epoch t => t.forget (lost - epoch * e.cap)
    current := e.current.forget (lost - e.finalized.length * e.cap) }

theorem forget_zero (e : PoseidonEpochIMT) : e.forget 0 = e := by
  have finalized : (e.forget 0).finalized = e.finalized := by
    apply List.ext_getElem?
    intro epoch
    rw [forget, List.getElem?_mapIdx]
    cases e.finalized[epoch]? with
    | none => rfl
    | some t =>
      rw [Option.map_some, Nat.zero_sub]
      rfl
  have current : (e.forget 0).current = e.current := by
    rw [forget, Nat.zero_sub]
    rfl
  cases e
  rw [mk.injEq]
  exact ⟨rfl, finalized, current⟩

theorem nodeSide_forget (e : PoseidonEpochIMT) (lost : Nat) :
    (e.forget lost).nodeSide = e.nodeSide := by
  have finalized : (e.forget lost).finalized.map PoseidonIMT256.toIMT256 =
      e.finalized.map PoseidonIMT256.toIMT256 := by
    rw [forget]
    apply List.ext_getElem?
    intro epoch
    rw [List.getElem?_map, List.getElem?_map, List.getElem?_mapIdx, Option.map_map]
    rfl
  rw [nodeSide, finalized]
  rfl

/-- The epochs that forget leaves. -/
theorem trees_forget (e : PoseidonEpochIMT) (lost epoch : Nat) :
    (e.forget lost).trees[epoch]? =
      (e.trees[epoch]?).map fun t => t.forget (lost - epoch * e.cap) := by
  rw [trees, trees]
  have lengths : (e.forget lost).finalized.length = e.finalized.length := List.length_mapIdx
  rcases Nat.lt_or_ge epoch e.finalized.length with old | last
  · rw [List.getElem?_append_left (by rwa [lengths]), List.getElem?_append_left old, forget,
      List.getElem?_mapIdx]
  · rw [List.getElem?_append_right (by rwa [lengths]), List.getElem?_append_right last, lengths,
      List.getElem?_singleton, List.getElem?_singleton]
    by_cases here : epoch - e.finalized.length = 0
    · obtain rfl : epoch = e.finalized.length := by omega
      rw [if_pos here, if_pos here]
      rfl
    · rw [if_neg here, if_neg here]
      rfl

/-- Appending keeps what is forgotten. -/
theorem forget_append {e : PoseidonEpochIMT} {leaves : List Node} (keeps : Keeps V e leaves)
    {lost : Nat} (within : lost ≤ leaves.length) (leaf : Node) :
    ((e.forget lost).append V leaf).1 = ((e.append V leaf).1).forget lost := by
  have length := keeps.length
  have lengths : (e.forget lost).finalized.length = e.finalized.length := List.length_mapIdx
  rw [append, append]
  by_cases full : e.current.count = e.cap
  · have forgotFull : (e.forget lost).current.count = (e.forget lost).cap := full
    rw [if_pos forgotFull, if_pos full]
    have fresh : lost - (e.finalized.length + 1) * e.cap = 0 := by
      rw [full] at length
      rw [Nat.succ_mul]
      rw [← cap] at length
      omega
    have finalized : (e.forget lost).finalized ++ [(e.forget lost).current] =
        (e.finalized ++ [e.current]).mapIdx fun epoch t => t.forget (lost - epoch * e.cap) := by
      rw [List.mapIdx_append, List.mapIdx_singleton, Nat.zero_add]
      rfl
    have current : (PoseidonIMT256.new V e.depth).append V leaf =
        ((PoseidonIMT256.new V e.depth).append V leaf).forget
          (lost - (e.finalized ++ [e.current]).length * e.cap) := by
      rw [List.length_append, List.length_singleton, fresh]
      rfl
    rw [mk.injEq]
    exact ⟨rfl, finalized, current⟩
  · have forgotOpen : ¬(e.forget lost).current.count = (e.forget lost).cap := full
    rw [if_neg forgotOpen, if_neg full]
    have kept : e.current.leaves.length = e.current.count := by
      have held := keeps.kept e.finalized.length e.current (by
        rw [trees, List.getElem?_append_right (Nat.le_refl _), Nat.sub_self]
        rfl)
      rw [held.leaves, held.count]
    have current : (e.forget lost).current.append V leaf =
        (e.current.append V leaf).forget (lost - e.finalized.length * e.cap) := by
      rw [← cap] at length
      rw [forget, PoseidonIMT256.forget, PoseidonIMT256.forget, PoseidonIMT256.append,
        PoseidonIMT256.append, List.drop_append_of_le_length (by omega)]
    rw [mk.injEq]
    exact ⟨rfl, rfl, current⟩

/-- A node that keeps no leaf has forgotten them all. -/
theorem ofNodeSide_nodeSide {e : PoseidonEpochIMT} {leaves : List Node}
    (keeps : Keeps V e leaves) : ofNodeSide e.nodeSide = e.forget leaves.length := by
  have bare : ∀ (epoch : Nat) (t : PoseidonIMT256), e.trees[epoch]? = some t →
      t.leaves.drop (leaves.length - epoch * e.cap) = [] := by
    intro epoch t found
    rw [(keeps.kept epoch t found).leaves, epochLeaves, cap]
    apply List.drop_eq_nil_of_le
    rw [List.length_take, List.length_drop]
    exact Nat.min_le_right _ _
  have finalized : (ofNodeSide e.nodeSide).finalized = (e.forget leaves.length).finalized := by
    apply List.ext_getElem?
    intro epoch
    rw [ofNodeSide, nodeSide, forget, List.map_map, List.getElem?_map, List.getElem?_mapIdx]
    cases here : e.finalized[epoch]? with
    | none => rfl
    | some t =>
      have inside := (List.getElem?_eq_some_iff.mp here).1
      have none := bare epoch t (by rw [trees, List.getElem?_append_left inside, here])
      rw [Option.map_some, Option.map_some, PoseidonIMT256.forget, none]
      rfl
  have current : (ofNodeSide e.nodeSide).current = (e.forget leaves.length).current := by
    have none := bare e.finalized.length e.current (by
      rw [trees, List.getElem?_append_right (Nat.le_refl _), Nat.sub_self]
      rfl)
    rw [forget, PoseidonIMT256.forget, none]
    rfl
  rw [ofNodeSide, forget, mk.injEq]
  exact ⟨rfl, finalized, current⟩

end PoseidonEpochIMT

/-! ## What is written fits the format -/

section Widths

variable (hashed : ∀ left right, (V.wideHash2 left right).length = 32)

include hashed

theorem zeroRoot_width (height : Nat) : (zeroRoot V height).length = 32 := by
  cases height with
  | zero => exact List.length_replicate
  | succ height => exact hashed _ _

theorem IMT256.Encodable.new (depth : Nat) : (IMT256.new V depth).Encodable depth where
  deep := rfl
  count := Nat.zero_le _
  levels := by rw [IMT256.new, List.length_map, List.length_range]
  root := zeroRoot_width hashed depth
  filled := by
    intro node member
    obtain ⟨height, -, rfl⟩ := List.mem_map.mp member
    exact zeroRoot_width hashed height

theorem IMT256.Encodable.append {t : IMT256} {depth : Nat} (encodable : t.Encodable depth)
    (room : t.count < 2 ^ depth) {leaf : Node} (wide : leaf.length = 32) :
    (t.append V leaf).Encodable depth := by
  obtain ⟨length, levels, root⟩ :=
    @Frontier.climb_all Node V.wideHash2 (fun node => node.length = 32)
      (fun left right _ _ => hashed left right) zeroHash leaf t.filled t.count
      (zeroRoot_width hashed 0) wide encodable.filled
  exact ⟨encodable.deep, room, length.trans encodable.levels, root, levels⟩

/-- The trees of nodes fit the format. -/
theorem encodable_appended (depth : Nat) {leaves : List Node}
    (wide : ∀ leaf ∈ leaves, leaf.length = 32) :
    ∀ t ∈ (PoseidonEpochIMT.appended V depth leaves).nodeSide.trees, t.Encodable depth := by
  induction leaves using List.reverseRecOn with
  | nil =>
    intro t member
    obtain rfl := List.mem_singleton.mp member
    exact IMT256.Encodable.new hashed depth
  | append_singleton leaves leaf ih =>
    have before := ih fun leaf member => wide leaf (List.mem_append_left _ member)
    have last := wide leaf (List.mem_append_right _ (List.mem_singleton_self _))
    have keeps := PoseidonEpochIMT.keeps_appended V depth leaves
    have room := keeps.room
    have deep := PoseidonEpochIMT.depth_appended V depth leaves
    have step : (PoseidonEpochIMT.appended V depth (leaves ++ [leaf])).nodeSide =
        (PoseidonEpochIMT.appended V depth leaves).nodeSide.append V leaf := by
      rw [← PoseidonEpochIMT.nodeSide_append, PoseidonEpochIMT.appended, List.foldl_append]
      rfl
    rw [step]
    generalize PoseidonEpochIMT.appended V depth leaves = e at before room deep
    intro t member
    rw [EpochIMT.append] at member
    split at member
    case isTrue full =>
      rcases List.mem_append.mp member with old | fresh
      · exact before t old
      · obtain rfl := List.mem_singleton.mp fresh
        change ((IMT256.new V e.depth).append V leaf).Encodable depth
        rw [deep]
        exact (IMT256.Encodable.new hashed depth).append hashed (Nat.two_pow_pos _) last
    case isFalse notFull =>
      rcases List.mem_append.mp member with old | current
      · exact before t (List.mem_append_left _ old)
      · obtain rfl := List.mem_singleton.mp current
        refine (before _ (List.mem_append_right _ (List.mem_singleton_self _))).append hashed
          ?_ last
        change e.current.count < 2 ^ depth
        change ¬e.current.count = 2 ^ e.depth at notFull
        rw [deep] at room notFull
        omega

end Widths

/-! ## Runs -/

namespace PoseidonEpochIMT

theorem appended_append (depth : Nat) (first second : List Node) :
    appended V depth (first ++ second) =
      second.foldl (fun e leaf => (e.append V leaf).1) (appended V depth first) :=
  List.foldl_append

theorem trees_early {e : PoseidonEpochIMT} (full : e.current.count = e.cap) (more : List Node) :
    e.trees <+: (more.foldl (fun e leaf => (e.append V leaf).1) e).trees := by
  have grows : ∀ (more : List Node) (e : PoseidonEpochIMT),
      e.finalized <+: (more.foldl (fun e leaf => (e.append V leaf).1) e).trees := by
    intro more
    induction more with
    | nil => exact fun e => List.prefix_append _ _
    | cons leaf more ih =>
      intro e
      refine List.IsPrefix.trans ?_ (ih _)
      change e.finalized <+: (e.append V leaf).1.finalized
      rw [append]
      split
      case isTrue => exact List.prefix_append _ _
      case isFalse => exact List.prefix_refl _
  cases more with
  | nil => exact List.prefix_refl _
  | cons leaf more =>
    refine List.IsPrefix.trans ?_ (grows more _)
    change e.trees <+: (e.append V leaf).1.finalized
    rw [append, if_pos full]
    exact List.prefix_refl _

theorem current_occupied {depth : Nat} {leaves : List Node} (some : leaves ≠ []) :
    0 < (appended V depth leaves).current.count := by
  obtain ⟨before, last, rfl⟩ := List.eq_nil_or_concat' leaves |>.resolve_left some
  rw [appended_append]
  change 0 < ((appended V depth before).append V last).1.current.count
  rw [append]
  split
  case isTrue => exact Nat.one_pos
  case isFalse => exact Nat.succ_pos _

/-- The first trees hold the first leaves. -/
theorem trees_take {depth n : Nat} {leaves : List Node}
    (inside : n < (appended V depth leaves).trees.length) (some : 0 < n) :
    (appended V depth leaves).trees.take n =
        (appended V depth (leaves.take (n * 2 ^ depth))).trees ∧
      (leaves.take (n * 2 ^ depth)).length = n * 2 ^ depth := by
  have positive := Nat.two_pow_pos depth
  have enough : n * 2 ^ depth ≤ leaves.length := by
    have keeps := keeps_appended V depth leaves
    have length := keeps.length
    rw [depth_appended] at length
    rw [trees, List.length_append, List.length_singleton] at inside
    rw [length]
    exact (Nat.mul_le_mul_right _ (Nat.le_of_lt_succ inside)).trans (Nat.le_add_right _ _)
  have whole : (leaves.take (n * 2 ^ depth)).length = n * 2 ^ depth :=
    List.length_take_of_le enough
  have keeps := keeps_appended V depth (leaves.take (n * 2 ^ depth))
  have length := keeps.length
  have room := keeps.room
  have occupied : 0 < (appended V depth (leaves.take (n * 2 ^ depth))).current.count :=
    current_occupied (List.ne_nil_of_length_pos (by rw [whole]; exact Nat.mul_pos some positive))
  have continued : (leaves.drop (n * 2 ^ depth)).foldl (fun e leaf => (e.append V leaf).1)
      (appended V depth (leaves.take (n * 2 ^ depth))) = appended V depth leaves := by
    rw [← appended_append, List.take_append_drop]
  have deep := depth_appended V depth (leaves.take (n * 2 ^ depth))
  rw [← continued]
  generalize appended V depth (leaves.take (n * 2 ^ depth)) = e at length room occupied deep
  rw [whole, deep] at length
  rw [deep] at room
  -- the last of `n` trees is full when they hold `n` times the capacity
  have count : e.finalized.length + 1 = n ∧ e.current.count = 2 ^ depth := by
    generalize 2 ^ depth = capacity at positive length room
    have low : e.finalized.length < n :=
      lt_of_mul_lt_mul_right (by omega : e.finalized.length * capacity < n * capacity)
        (Nat.zero_le _)
    have high : n ≤ e.finalized.length + 1 :=
      le_of_mul_le_mul_right (by rw [Nat.succ_mul]; omega) positive
    obtain rfl : n = e.finalized.length + 1 := by omega
    rw [Nat.succ_mul] at length
    exact ⟨rfl, by omega⟩
  have full : e.current.count = e.cap := by rw [count.2, cap, deep]
  have trees_count : e.trees.length = n := by
    rw [trees, List.length_append, List.length_singleton, count.1]
  refine ⟨?_, whole⟩
  rw [← trees_count]
  exact (List.prefix_iff_eq_take.mp (trees_early full _)).symm

theorem nodeSide_trees (e : PoseidonEpochIMT) :
    e.nodeSide.trees = e.trees.map PoseidonIMT256.toIMT256 := by
  rw [trees, List.map_append]
  rfl

/-- A stored state is read back as the trees of the leaves, or of so many of the first ones that
the number of trees has four bytes. -/
theorem of_load_appended (hashed : ∀ left right, (V.wideHash2 left right).length = 32)
    {depth : Nat} (word : depth < 64) {leaves : List Node}
    (wide : ∀ leaf ∈ leaves, leaf.length = 32) {stored : EpochIMT}
    (loaded : loadEpochIMTState (appended V depth leaves).nodeSide.marshalState = some stored) :
    ∃ kept, stored = (appended V depth kept).nodeSide ∧ 0 < depth ∧ kept <+: leaves ∧
      (kept = leaves ∨ 2 ≤ kept.length) := by
  have deep := depth_appended V depth leaves
  have sameDeep : (appended V depth leaves).nodeSide.depth = depth := deep
  have encodable := encodable_appended hashed depth wide
  obtain ⟨n, some, counted, positive, sameDepth, sameTrees⟩ :=
    EpochIMT.of_load (by rwa [sameDeep]) (by rwa [sameDeep]) loaded
  change 0 < (appended V depth leaves).depth at positive
  rw [deep] at positive
  rcases counted with all | ⟨fewer, -⟩
  · rw [all, List.take_length] at sameTrees
    exact ⟨leaves, EpochIMT.ext_trees sameDepth sameTrees, positive, List.prefix_refl _,
      Or.inl rfl⟩
  · rw [nodeSide_trees, List.length_map] at fewer
    obtain ⟨first, length⟩ := trees_take fewer some
    refine ⟨leaves.take (n * 2 ^ depth), EpochIMT.ext_trees ?_ ?_, positive,
      List.take_prefix _ _, Or.inr ?_⟩
    · rw [sameDepth]
      change (appended V depth leaves).depth = (appended V depth _).depth
      rw [deep, depth_appended]
    · rw [sameTrees, nodeSide_trees, nodeSide_trees, ← List.map_take, first]
    · rw [length]
      calc 2 ≤ 2 ^ depth := Nat.le_self_pow (by omega) 2
        _ ≤ n * 2 ^ depth := Nat.le_mul_of_pos_left _ some

end PoseidonEpochIMT

theorem leavesOf_append (first second : List EpochOp) :
    leavesOf (first ++ second) = leavesOf first ++ leavesOf second :=
  List.filterMap_append

/-- A leaf disturbs nothing. -/
theorem Undisturbed.append_leaf {ops : List EpochOp} {leaf : Node} :
    Undisturbed (ops ++ [.append leaf]) ↔ Undisturbed ops := by
  constructor
  · intro undisturbed before after split
    refine undisturbed before (after ++ [.append leaf]) ?_
    rw [split, List.append_assoc]
    rfl
  · intro undisturbed before after split
    rcases List.eq_nil_or_concat' after with rfl | ⟨init, last, rfl⟩
    · exact nomatch (List.append_inj' split rfl).2
    · refine undisturbed before init ?_
      have regrouped : ops ++ [.append leaf] = (before ++ .restore :: init) ++ [last] := by
        rw [split, List.append_assoc]
        rfl
      exact (List.append_inj' regrouped rfl).1

theorem Undisturbed.append_restore {ops : List EpochOp} :
    Undisturbed (ops ++ [.restore]) ↔ leavesOf ops = [] := by
  constructor
  · exact fun undisturbed => undisturbed ops [] rfl
  · intro none before after split
    have first : before <+: ops := by
      rcases List.eq_nil_or_concat' after with rfl | ⟨init, last, rfl⟩
      · exact (List.append_inj' split rfl).1 ▸ List.prefix_refl _
      · have regrouped : ops ++ [.restore] = (before ++ .restore :: init) ++ [last] := by
          rw [split, List.append_assoc]
          rfl
        rw [(List.append_inj' regrouped rfl).1]
        exact List.prefix_append _ _
    have leaves : leavesOf before <+: leavesOf ops := first.filterMap _
    rw [none] at leaves
    exact List.prefix_nil.mp leaves

namespace PoseidonEpochIMT

/-- What a run leads to: the trees of the leaves, the first of them forgotten. -/
structure Forgets (V : Primitives) (depth : Nat) (ops : List EpochOp) (e : PoseidonEpochIMT)
    (kept : List Node) (lost : Nat) : Prop where
  state : e = (appended V depth kept).forget lost
  within : lost ≤ kept.length
  deep : 0 < lost → 0 < depth
  listed : kept = leavesOf ops ∨ 2 ≤ kept.length ∧ 2 ≤ (leavesOf ops).length
  members : kept ⊆ leavesOf ops
  undisturbed : lost = 0 ↔ Undisturbed ops

theorem Forgets.start (depth : Nat) : Forgets V depth [] (new V depth) [] 0 where
  state := (forget_zero _).symm
  within := Nat.le_refl _
  deep := fun some => absurd some (Nat.lt_irrefl 0)
  listed := Or.inl rfl
  members := List.Subset.refl _
  undisturbed := by
    refine ⟨fun _ before after split => ?_, fun _ => rfl⟩
    exact absurd split (by simp)

theorem Forgets.append {depth : Nat} {ops : List EpochOp} {e : PoseidonEpochIMT}
    {kept : List Node} {lost : Nat} (forgets : Forgets V depth ops e kept lost) (leaf : Node) :
    Forgets V depth (ops ++ [.append leaf]) (e.append V leaf).1 (kept ++ [leaf]) lost where
  state := by
    rw [forgets.state, forget_append (keeps_appended V depth kept) forgets.within,
      appended_append]
    rfl
  within := by
    rw [List.length_append]
    exact forgets.within.trans (Nat.le_add_right _ _)
  deep := forgets.deep
  listed := by
    rw [leavesOf_append]
    rcases forgets.listed with same | ⟨many, all⟩
    · exact Or.inl (congrArg (· ++ [leaf]) same)
    · refine Or.inr ⟨?_, ?_⟩
      · rw [List.length_append]
        omega
      · rw [List.length_append]
        omega
  members := by
    rw [leavesOf_append]
    exact List.append_subset.mpr
      ⟨List.Subset.trans forgets.members (List.subset_append_left _ _),
        List.subset_append_right _ _⟩
  undisturbed := forgets.undisturbed.trans Undisturbed.append_leaf.symm

/-- A restart forgets the leaves of the open epochs. -/
theorem Forgets.restore (hashed : ∀ left right, (V.wideHash2 left right).length = 32)
    {depth : Nat} (word : depth < 64) {ops : List EpochOp} {e e' : PoseidonEpochIMT}
    {kept : List Node} {lost : Nat} (forgets : Forgets V depth ops e kept lost)
    (wide : ∀ leaf ∈ leavesOf ops, leaf.length = 32) (restored : e.restore = some e') :
    ∃ kept, Forgets V depth (ops ++ [.restore]) e' kept kept.length := by
  rw [PoseidonEpochIMT.restore, forgets.state, nodeSide_forget] at restored
  obtain ⟨stored, loaded, rfl⟩ := Option.map_eq_some_iff.mp restored
  obtain ⟨again, rfl, positive, first, same⟩ :=
    of_load_appended hashed word (fun leaf member => wide leaf (forgets.members member)) loaded
  have listed : again = leavesOf ops ∨ 2 ≤ again.length ∧ 2 ≤ (leavesOf ops).length := by
    have shorter := first.length_le
    rcases same, forgets.listed with ⟨rfl | many, all | ⟨long, all⟩⟩
    · exact Or.inl all
    · exact Or.inr ⟨long, all⟩
    · exact Or.inr ⟨many, by rw [← all]; omega⟩
    · exact Or.inr ⟨many, all⟩
  refine ⟨again, ?_, Nat.le_refl _, fun _ => positive, ?_, ?_, ?_⟩
  · exact ofNodeSide_nodeSide (keeps_appended V depth again)
  · rw [leavesOf_append]
    change again = leavesOf ops ++ [] ∨ 2 ≤ again.length ∧ 2 ≤ (leavesOf ops ++ []).length
    rw [List.append_nil]
    exact listed
  · rw [leavesOf_append]
    exact List.Subset.trans (List.Subset.trans first.subset forgets.members)
      (List.subset_append_left _ _)
  · rw [Undisturbed.append_restore]
    rcases listed with rfl | ⟨many, all⟩
    · exact List.length_eq_zero_iff
    · constructor
      · intro none
        omega
      · intro none
        rw [none] at all
        exact absurd all (by simp)

theorem run_forgets (hashed : ∀ left right, (V.wideHash2 left right).length = 32) {depth : Nat}
    (word : depth < 64) {ops : List EpochOp} (wide : ∀ leaf ∈ leavesOf ops, leaf.length = 32)
    {e : PoseidonEpochIMT} (reached : run V depth ops = some e) :
    ∃ kept lost, Forgets V depth ops e kept lost := by
  induction ops using List.reverseRecOn generalizing e with
  | nil =>
    obtain rfl := Option.some.inj reached
    exact ⟨[], 0, Forgets.start depth⟩
  | append_singleton ops op ih =>
    rw [run, List.foldlM_append] at reached
    obtain ⟨before, ran, stepped⟩ := Option.bind_eq_some_iff.mp reached
    rw [leavesOf_append] at wide
    have wideBefore : ∀ leaf ∈ leavesOf ops, leaf.length = 32 := fun leaf member =>
      wide leaf (List.mem_append_left _ member)
    obtain ⟨kept, lost, forgets⟩ := ih wideBefore ran
    rw [List.foldlM_cons] at stepped
    obtain ⟨after, applied, done⟩ := Option.bind_eq_some_iff.mp stepped
    obtain rfl := Option.some.inj done
    cases op with
    | append leaf =>
      obtain rfl := Option.some.inj applied
      exact ⟨_, _, forgets.append leaf⟩
    | restore =>
      obtain ⟨again, restored⟩ := forgets.restore hashed word wideBefore applied
      exact ⟨_, _, restored⟩

/-! ## Witnesses -/

theorem of_find {e : PoseidonEpochIMT} {leaf : Node} {epoch index : Nat}
    (found : e.find leaf = some (epoch, index)) :
    ∃ t, e.trees[epoch]? = some t ∧ index < t.count ∧ t.leafAt index = leaf := by
  obtain ⟨⟨t, at_epoch⟩, member, hit⟩ := List.exists_of_findSome?_eq_some found
  obtain ⟨i, first, place⟩ := Option.map_eq_some_iff.mp hit
  obtain ⟨rfl, rfl⟩ := Prod.mk.inj place
  refine ⟨t, List.mem_zipIdx_iff_getElem?.mp member, ?_, ?_⟩
  · exact List.mem_range.mp (List.mem_of_find?_eq_some first)
  · have hit := List.find?_some first
    exact beq_iff_eq.mp hit

/-- The first position is looked at first. -/
theorem find_first {e : PoseidonEpochIMT} {t : PoseidonIMT256} (first : e.trees[0]? = some t)
    (occupied : 0 < t.count) : e.find (t.leafAt 0) = some (0, 0) := by
  obtain ⟨rest, trees⟩ : ∃ rest, e.trees = t :: rest := by
    cases all : e.trees with
    | nil => rw [all] at first; exact nomatch first
    | cons head rest =>
      rw [all] at first
      obtain rfl := Option.some.inj first
      exact ⟨rest, rfl⟩
  obtain ⟨n, count⟩ : ∃ n, t.count = n + 1 := Nat.exists_eq_succ_of_ne_zero occupied.ne'
  have hit : ((List.range t.count).find? fun i => t.leafAt i == t.leafAt 0) = some 0 := by
    rw [count, List.range_succ_eq_map]
    exact List.find?_cons_of_pos (beq_self_eq_true (t.leafAt 0))
  rw [find, trees, List.zipIdx_cons, List.findSome?_cons]
  simp only [hit]
  rfl

theorem zkWitnessFor_of_find {e : PoseidonEpochIMT} {leaf : Node} {epoch index : Nat}
    {t : PoseidonIMT256} (node : (parseNode leaf).isSome = true)
    (found : e.find leaf = some (epoch, index)) (tree : e.trees[epoch]? = some t) :
    e.zkWitnessFor V leaf =
      match t.pathFor? V index with
      | none => .outOfRange
      | some path => .found t.root path := by
  obtain ⟨n, parsed⟩ := Option.isSome_iff_exists.mp node
  obtain rfl := parseNode_eq parsed
  rw [zkWitnessFor, parsed]
  simp only [found, tree]

theorem zkWitnessFor_cases {e : PoseidonEpochIMT} {leaf : Node} :
    e.zkWitnessFor V leaf = .notFound ∨
      ∃ epoch index t, e.find leaf = some (epoch, index) ∧ e.trees[epoch]? = some t ∧
        index < t.count ∧ t.leafAt index = leaf ∧ (parseNode leaf).isSome = true := by
  cases parsed : parseNode leaf with
  | none => exact Or.inl (by rw [zkWitnessFor, parsed])
  | some n =>
    obtain rfl := parseNode_eq parsed
    cases found : e.find n with
    | none => exact Or.inl (by rw [zkWitnessFor, parsed]; simp only [found])
    | some place =>
      obtain ⟨epoch, index⟩ := place
      obtain ⟨t, tree, counted, here⟩ := of_find found
      exact Or.inr ⟨epoch, index, t, rfl, tree, counted, here, rfl⟩

theorem rootAt_of_tree {e : PoseidonEpochIMT} {epoch : Nat} {t : PoseidonIMT256}
    (tree : e.trees[epoch]? = some t) : e.rootAt epoch = some t.root := by
  rw [rootAt, if_neg (Int.not_lt.mpr (Int.natCast_nonneg _)), Int.toNat_natCast, tree]
  rfl

theorem Keeps.witnessSound {e : PoseidonEpochIMT} {leaves : List Node}
    (keeps : Keeps V e leaves) : e.WitnessSound V := by
  intro leaf
  rcases @zkWitnessFor_cases V e leaf with
    none | ⟨epoch, index, t, found, tree, counted, here, node⟩
  · rw [none]
    exact ⟨nofun, nofun⟩
  · have kept := keeps.kept epoch t tree
    have whole : t.count ≤ t.leaves.length := by rw [kept.count, kept.leaves]
    have answer := zkWitnessFor_of_find (V := V) node found tree
    rw [PoseidonIMT256.pathFor?_of_kept whole] at answer
    have placed : (epochLeaves e.depth leaves epoch)[index]? = some leaf := by
      rw [kept.count] at counted
      rw [PoseidonIMT256.leafAt, kept.leaves, List.getElem?_eq_getElem counted] at here
      rw [List.getElem?_eq_getElem counted]
      exact congrArg some here
    have verified := kept.verifyPath (keeps.root tree) (List.length_take_le _ _) placed
    rw [answer]
    refine ⟨nofun, ?_⟩
    intro anchor path same
    obtain ⟨rfl, rfl⟩ := Lookup.found.inj same
    exact ⟨verified, epoch, index, found, rootAt_of_tree tree⟩

theorem first_tree {depth lost : Nat} {leaves : List Node} :
    ∃ t, ((appended V depth leaves).forget lost).trees[0]? = some t ∧ t.depth = depth ∧
      t.count = (leaves.take (2 ^ depth)).length ∧
      t.leaves = (leaves.take (2 ^ depth)).drop lost ∧
      t.root = rootOver V depth (leaves.take (2 ^ depth)) := by
  have keeps := keeps_appended V depth leaves
  have deep := depth_appended V depth leaves
  have inside : 0 < (appended V depth leaves).trees.length := by
    rw [trees, List.length_append, List.length_singleton]
    omega
  have tree := List.getElem?_eq_getElem inside
  have kept := keeps.kept 0 _ tree
  have root := keeps.root tree
  have first : epochLeaves depth leaves 0 = leaves.take (2 ^ depth) := by
    rw [epochLeaves, Nat.zero_mul, List.drop_zero]
  rw [deep, first] at kept root
  refine ⟨(appended V depth leaves).trees[0].forget lost, ?_, kept.depth, kept.count, ?_, root⟩
  · rw [trees_forget, tree, Nat.zero_mul]
    rfl
  · rw [PoseidonIMT256.forget, kept.leaves]

/-- A tree of several leaves without the first is read out of range. -/
theorem outOfRange_of_forget {depth lost : Nat} {leaves : List Node} (deep : 0 < depth)
    (some : 0 < lost) (many : 2 ≤ leaves.length)
    (nodes : ∀ leaf ∈ leaves, (parseNode leaf).isSome = true) :
    ∃ leaf, ((appended V depth leaves).forget lost).zkWitnessFor V leaf = .outOfRange := by
  obtain ⟨t, tree, tDepth, count, kept, -⟩ := @first_tree V depth lost leaves
  have pair : 2 ≤ 2 ^ depth := Nat.le_self_pow (by omega) 2
  have occupied : 2 ≤ t.count := by
    rw [count, List.length_take]
    omega
  have keptLength : t.leaves.length = t.count - lost := by rw [kept, List.length_drop, count]
  have node : (parseNode (t.leafAt 0)).isSome = true := by
    rw [PoseidonIMT256.leafAt]
    cases here : t.leaves[0]? with
    | none => decide
    | some leaf =>
      refine nodes leaf ?_
      have member := List.mem_of_getElem? here
      rw [kept] at member
      exact List.mem_of_mem_take (List.mem_of_mem_drop member)
  refine ⟨t.leafAt 0, ?_⟩
  rw [zkWitnessFor_of_find node (find_first tree (by omega)) tree]
  cases answered : t.pathFor? V 0 with
  | none => rfl
  | some path =>
    -- the position behind the kept leaves, or the second one, is read
    have below : max 1 t.leaves.length < t.count := by omega
    have within : t.count ≤ 2 ^ t.depth := by
      rw [count, tDepth]
      exact List.length_take_le _ _
    have read := PoseidonIMT256.kept_of_pathFor? answered (Nat.lt_of_lt_of_le Nat.one_pos
      (Nat.le_max_left 1 t.leaves.length)) (below.trans_le within) below
    omega

theorem climbFrom_blank (depth : Nat) :
    Frontier.climbFrom V.wideHash2 zeroHash 0 ((List.range depth).map (zeroRoot V)) =
      rootOver V depth [] := by
  have climbed := Frontier.climbFrom_levels V.wideHash2 depth
    (Frontier.padded zeroHash ([] : List Node)) (Nat.two_pow_pos depth)
  have siblings : ((List.range depth).map fun k => Frontier.levelAt V.wideHash2
      (Frontier.padded zeroHash ([] : List Node)) k ((0 >>> k) ^^^ 1)) =
      (List.range depth).map (zeroRoot V) := by
    apply List.map_congr_left
    intro k _
    exact Frontier.levelAt_blank (Nat.zero_le _)
  rw [siblings] at climbed
  exact climbed

/-- A lone forgotten leaf is looked up as the blank one. -/
theorem lone_witnessSound_iff {depth : Nat} (leaf : Node) :
    ((appended V depth [leaf]).forget 1).WitnessSound V ↔
      rootOver V depth [leaf] = rootOver V depth [] := by
  have alone : [leaf].take (2 ^ depth) = [leaf] :=
    List.take_of_length_le (Nat.two_pow_pos depth)
  obtain ⟨t, tree, tDepth, count, kept, root⟩ := @first_tree V depth 1 [leaf]
  rw [alone] at count kept root
  change t.count = 1 at count
  change t.leaves = [] at kept
  have blank : t.leafAt 0 = zeroHash := by
    rw [PoseidonIMT256.leafAt, kept]
    rfl
  have found := find_first tree (by omega)
  rw [blank] at found
  have siblings : ((List.range t.depth).mapM fun k =>
      t.subtreeHash? V k (((0 >>> k) ^^^ 1) <<< k)) =
      some ((List.range depth).map (zeroRoot V)) := by
    have free : ∀ k, t.subtreeHash? V k (((0 >>> k) ^^^ 1) <<< k) = some (zeroRoot V k) := by
      intro k
      have base : ((0 >>> k) ^^^ 1) <<< k = 2 ^ k := by
        rw [Nat.zero_shiftRight, Nat.zero_xor, Nat.one_shiftLeft]
      have positive := Nat.two_pow_pos k
      rw [base]
      cases k with
      | zero => rw [PoseidonIMT256.subtreeHash?, if_neg (by omega)]
      | succ k => rw [PoseidonIMT256.subtreeHash?, if_pos (by omega)]
    simp only [free, tDepth]
    exact List.mapM_pure
  have path : t.pathFor? V 0 = some ⟨0, (List.range depth).map (zeroRoot V)⟩ := by
    rw [PoseidonIMT256.pathFor?, siblings]
    rfl
  have answer : ((appended V depth [leaf]).forget 1).zkWitnessFor V zeroHash =
      .found t.root ⟨0, (List.range depth).map (zeroRoot V)⟩ := by
    rw [zkWitnessFor_of_find (by decide) found tree, path]
  have verified : verifyPath256 V t.root zeroHash ⟨0, (List.range depth).map (zeroRoot V)⟩ =
      true ↔ rootOver V depth [leaf] = rootOver V depth [] := by
    rw [verifyPath256, beq_iff_eq, climbFrom_blank, root]
    exact eq_comm
  constructor
  · exact fun sound => verified.mp ((sound zeroHash).2 _ _ answer).1
  · intro same other
    rcases @zkWitnessFor_cases V ((appended V depth [leaf]).forget 1) other with
      none | ⟨epoch, index, t', found', tree', counted, here, node⟩
    · rw [none]
      exact ⟨by rintro ⟨⟩, by rintro _ _ ⟨⟩⟩
    · have only : epoch = 0 := by
        have length := (keeps_appended V depth [leaf]).length
        have occupied := @current_occupied V depth [leaf] (List.cons_ne_nil _ _)
        have positive := Nat.two_pow_pos depth
        have inside := (List.getElem?_eq_some_iff.mp tree').1
        rw [depth_appended, List.length_singleton] at length
        rw [trees, List.length_append, List.length_singleton, forget, List.length_mapIdx] at inside
        rcases Nat.eq_zero_or_pos (appended V depth [leaf]).finalized.length with none | some
        · omega
        · have := Nat.mul_le_mul_right (2 ^ depth) some
          omega
      subst only
      obtain rfl : t = t' := Option.some.inj (tree.symm.trans tree')
      obtain rfl : index = 0 := by omega
      obtain rfl : zeroHash = other := blank.symm.trans here
      rw [answer]
      refine ⟨by rintro ⟨⟩, ?_⟩
      intro anchor found_path matched
      obtain ⟨rfl, rfl⟩ := Lookup.found.inj matched
      exact ⟨verified.mpr same, 0, 0, found, rootAt_of_tree tree⟩

/-- **Witnesses after a restore.** After a run of appends and restores every lookup is in range
and every path leads to the root of its epoch exactly if no leaf was appended before a restore,
or a single leaf was appended whose tree has the root of the empty one. -/
theorem witnessSound_iff (V : Primitives)
    (hashed : ∀ left right, (V.wideHash2 left right).length = 32) {depth : Nat}
    (word : depth < 64) {ops : List EpochOp}
    (nodes : ∀ leaf ∈ leavesOf ops, (parseNode leaf).isSome = true) {e : PoseidonEpochIMT}
    (reached : run V depth ops = some e) :
    e.WitnessSound V ↔ Undisturbed ops ∨
      ∃ leaf, leavesOf ops = [leaf] ∧ rootOver V depth [leaf] = rootOver V depth [] := by
  have wide : ∀ leaf ∈ leavesOf ops, leaf.length = 32 := by
    intro leaf member
    obtain ⟨n, parsed⟩ := Option.isSome_iff_exists.mp (nodes leaf member)
    rw [parseNode] at parsed
    split at parsed
    case isTrue fits => exact fits.1
    case isFalse => exact nomatch parsed
  obtain ⟨kept, lost, state, within, deep, listed, members, undisturbed⟩ :=
    run_forgets hashed word wide reached
  rw [state, ← undisturbed]
  have keeps := keeps_appended V depth kept
  rcases Nat.eq_zero_or_pos lost with rfl | some
  · rw [forget_zero]
    exact ⟨fun _ => Or.inl rfl, fun _ => keeps.witnessSound⟩
  rcases Nat.lt_or_ge kept.length 2 with few | many
  · obtain ⟨leaf, rfl⟩ := List.length_eq_one_iff.mp (by omega : kept.length = 1)
    obtain rfl : lost = 1 := by
      rw [List.length_singleton] at within
      omega
    have all : leavesOf ops = [leaf] := by
      rcases listed with same | ⟨many, -⟩
      · exact same.symm
      · exact absurd many (by simp)
    rw [lone_witnessSound_iff, all]
    constructor
    · exact fun same => Or.inr ⟨leaf, rfl, same⟩
    · rintro (none | ⟨other, same, root⟩)
      · exact absurd none (by omega)
      · obtain rfl := List.singleton_inj.mp same
        exact root
  · obtain ⟨leaf, outside⟩ := @outOfRange_of_forget V depth lost kept (deep some) some many
      fun leaf member => nodes leaf (members member)
    constructor
    · exact fun sound => absurd outside (sound leaf).1
    · rintro (none | ⟨other, single, -⟩)
      · omega
      · rcases listed with same | ⟨-, two⟩
        · rw [same, single] at many
          exact absurd many (by simp)
        · rw [single] at two
          exact absurd two (by simp)

/-- A network whose node hash has the width of a node. -/
def nodeNet : Primitives :=
  { Testnet.primitives Testnet.checksum with
    wideHash2 := fun left right => Testnet.checksum (left ++ right) }

set_option maxRecDepth 30000 in
/-- A restart before the first leaf does no harm. -/
theorem witnessSound_of_early_restart :
    ∃ e, run nodeNet Config.zkDepth [.restore, .append (bigEndian 32 1)] = some e ∧
      e.WitnessSound nodeNet := by
  obtain ⟨e, reached⟩ := Option.isSome_iff_exists.mp
    (by decide : (run nodeNet Config.zkDepth [.restore, .append (bigEndian 32 1)]).isSome = true)
  refine ⟨e, reached, ?_⟩
  refine (witnessSound_iff nodeNet (fun _ _ => Testnet.checksum_length _) (by decide) (by decide)
    reached).mpr (Or.inl ?_)
  exact @Undisturbed.append_leaf [.restore] _ |>.mpr (@Undisturbed.append_restore [] |>.mpr rfl)

/-- Two leaves, a restart, and one leaf more. -/
def interrupted : List EpochOp :=
  [.append (bigEndian 32 1), .append (bigEndian 32 2), .restore, .append (bigEndian 32 3)]

set_option maxRecDepth 30000 in
/-- The leaf that was appended after the restart is found at the first position, and its path
reads past the kept leaves. -/
theorem witness_of_interrupted :
    (∀ leaf ∈ leavesOf interrupted, (parseNode leaf).isSome = true) ∧
      ∃ e, run nodeNet Config.zkDepth interrupted = some e ∧
        e.zkWitnessFor nodeNet (bigEndian 32 3) = .outOfRange ∧ ¬e.WitnessSound nodeNet := by
  have lookup : (run nodeNet Config.zkDepth interrupted).map
      (fun e => e.zkWitnessFor nodeNet (bigEndian 32 3)) = some .outOfRange := by
    decide
  obtain ⟨e, reached, outside⟩ := Option.map_eq_some_iff.mp lookup
  exact ⟨by decide, e, reached, outside, fun sound => (sound _).1 outside⟩

end PoseidonEpochIMT

end Obscura
