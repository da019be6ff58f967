import Obscura.Anchors
import Obscura.Testnet

/-! # Authentication paths into the epoch trees

A wallet keeps the leaves of every epoch tree beside the frontier, to compute the path of
a note. The frontier's root of an epoch is the root of the full tree over its leaves, the
predicted root is the one after appending, and the path of every appended leaf is accepted
against the root of its epoch. Depths are below 64, so that a capacity is a machine word.
-/

namespace Obscura

open Wire

/-! ## Trees that keep their leaves -/

/-- The tree of a wallet, which keeps the leaves. -/
structure PoseidonIMT256 extends IMT256 where
  leaves : List Node := []

/-- A leaf's index in its epoch and its siblings from the leaf up. -/
structure MerklePath256 where
  index : Nat
  siblings : List Node

variable (V : Primitives)

namespace PoseidonIMT256

/-- An empty tree. -/
def new (depth : Nat) : PoseidonIMT256 := { IMT256.new V depth with }

/-- Append a leaf and keep it. -/
def append (t : PoseidonIMT256) (leaf : Node) : PoseidonIMT256 :=
  { t.toIMT256.append V leaf with leaves := t.leaves ++ [leaf] }

/-- The root of the subtree of the given height over the leaves from `base` on. -/
def subtreeHash (t : PoseidonIMT256) : (level base : Nat) → Node
  | 0, base => if base < t.count then t.leaves[base]?.getD zeroHash else zeroRoot V 0
  | level + 1, base =>
    if t.count ≤ base then
      zeroRoot V (level + 1)
    else
      V.wideHash2 (subtreeHash t level base) (subtreeHash t level (base + 2 ^ level))

/-- The siblings of a leaf; missing subtrees are empty. -/
def pathFor (t : PoseidonIMT256) (i : Nat) : MerklePath256 where
  index := i
  siblings := (List.range t.depth).map fun k => t.subtreeHash V k (((i >>> k) ^^^ 1) <<< k)

end PoseidonIMT256

/-- Recompute the root from a leaf and its path. -/
def verifyPath256 (root leaf : Node) (path : MerklePath256) : Bool :=
  Frontier.climbFrom V.wideHash2 leaf path.index path.siblings == root

/-- A sequence of trees of one depth, the newest apart. -/
structure PoseidonEpochIMT where
  depth : Nat
  finalized : List PoseidonIMT256 := []
  current : PoseidonIMT256

namespace PoseidonEpochIMT

/-- The first epoch, empty. -/
def new (depth : Nat) : PoseidonEpochIMT where
  depth := depth
  current := PoseidonIMT256.new V depth

/-- The leaves that fit one epoch. -/
def cap (e : PoseidonEpochIMT) : Nat := 2 ^ e.depth

/-- The finalized epochs and the current one. -/
def trees (e : PoseidonEpochIMT) : List PoseidonIMT256 := e.finalized ++ [e.current]

/-- Append a leaf; returns the epoch and the index within it as well. -/
def append (e : PoseidonEpochIMT) (leaf : Node) : PoseidonEpochIMT × Nat × Nat :=
  if e.current.count = e.cap then
    ({ e with
        finalized := e.finalized ++ [e.current]
        current := (PoseidonIMT256.new V e.depth).append V leaf },
      e.finalized.length + 1, 0)
  else
    ({ e with current := e.current.append V leaf }, e.finalized.length, e.current.count)

/-- The root of the epoch that is being filled. -/
def currentRoot (e : PoseidonEpochIMT) : Node := e.current.root

/-- The current root after appending, on copies of the frontier, the count and the root. -/
def rootAfter (e : PoseidonEpochIMT) (leaves : List Node) : Node :=
  let zeros := (List.range e.depth).map (zeroRoot V)
  (leaves.foldl (fun (filled, count, _) leaf =>
    let (filled, count) := if count = e.cap then (zeros, 0) else (filled, count)
    let (filled, root) := Frontier.climb V.wideHash2 zeroHash filled count leaf
    (filled, count + 1, root)) (e.current.filled, e.current.count, e.current.root)).2.2

/-- The root of an epoch by number. -/
def rootAt (e : PoseidonEpochIMT) (epoch : Int) : Option Node :=
  if epoch < 0 then none else e.trees[epoch.toNat]?.map fun t => t.root

/-- The path and the root for a leaf of an epoch. -/
def pathFor (e : PoseidonEpochIMT) (epoch : Int) (index : Nat) : Option (MerklePath256 × Node) :=
  if epoch < 0 then none else e.trees[epoch.toNat]?.map fun t => (t.pathFor V index, t.root)

/-- The trees after appending to none. -/
def appended (depth : Nat) (leaves : List Node) : PoseidonEpochIMT :=
  leaves.foldl (fun e leaf => (e.append V leaf).1) (new V depth)

/-- What a node keeps of the trees. -/
def nodeSide (e : PoseidonEpochIMT) : EpochIMT where
  depth := e.depth
  finalized := e.finalized.map PoseidonIMT256.toIMT256
  current := e.current.toIMT256

end PoseidonEpochIMT

/-! ## Paths within a tree -/

variable {V}

/-- A tree whose kept leaves are the ones it counts. -/
structure PoseidonIMT256.Keeps (t : PoseidonIMT256) (depth : Nat) (leaves : List Node) : Prop where
  depth : t.depth = depth
  count : t.count = leaves.length
  leaves : t.leaves = leaves

/-- The hash of a subtree, from the leaves below it. -/
theorem PoseidonIMT256.Keeps.subtreeHash {t : PoseidonIMT256} {depth : Nat} {leaves : List Node}
    (keeps : t.Keeps depth leaves) (level position : Nat) :
    t.subtreeHash V level (position * 2 ^ level) =
      Frontier.levelAt V.wideHash2 (Frontier.padded zeroHash leaves) level position := by
  induction level generalizing position with
  | zero =>
    rw [Nat.pow_zero, Nat.mul_one, PoseidonIMT256.subtreeHash, keeps.count, keeps.leaves]
    change _ = (leaves[position]?).getD zeroHash
    by_cases occupied : position < leaves.length
    · rw [if_pos occupied]
    · rw [if_neg occupied, List.getElem?_eq_none (Nat.le_of_not_lt occupied)]
      rfl
  | succ level ih =>
    rw [PoseidonIMT256.subtreeHash, keeps.count]
    by_cases free : leaves.length ≤ position * 2 ^ (level + 1)
    · rw [if_pos free, Frontier.levelAt_blank free]
      rfl
    · have left : position * 2 ^ (level + 1) = 2 * position * 2 ^ level := by ring
      have right : position * 2 ^ (level + 1) + 2 ^ level =
          (2 * position + 1) * 2 ^ level := by ring
      rw [if_neg free, right, left, ih, ih, Frontier.levelAt_succ]

/-- The path of a leaf leads to the root. -/
theorem PoseidonIMT256.Keeps.verifyPath {t : PoseidonIMT256} {depth i : Nat}
    {leaves : List Node} {leaf : Node} (keeps : t.Keeps depth leaves)
    (root : t.root = rootOver V depth leaves) (within : leaves.length ≤ 2 ^ depth)
    (here : leaves[i]? = some leaf) : verifyPath256 V t.root leaf (t.pathFor V i) = true := by
  have inside := (List.getElem?_eq_some_iff.mp here).1
  have siblings : (t.pathFor V i).siblings = (List.range depth).map fun k =>
      Frontier.levelAt V.wideHash2 (Frontier.padded zeroHash leaves) k ((i >>> k) ^^^ 1) := by
    rw [PoseidonIMT256.pathFor, keeps.depth]
    apply List.map_congr_left
    intro k _
    rw [Nat.shiftLeft_eq]
    exact keeps.subtreeHash k _
  have placed : Frontier.padded zeroHash leaves i = leaf := by
    rw [Frontier.padded, here]
    rfl
  have climbed := Frontier.climbFrom_levels V.wideHash2 depth (Frontier.padded zeroHash leaves)
    (lt_of_lt_of_le inside within)
  rw [placed, ← siblings] at climbed
  rw [verifyPath256, beq_iff_eq, root]
  exact climbed

/-! ## The sequence of trees -/

namespace PoseidonEpochIMT

theorem nodeSide_append (e : PoseidonEpochIMT) (leaf : Node) :
    (e.append V leaf).1.nodeSide = e.nodeSide.append V leaf := by
  rw [append, EpochIMT.append]
  by_cases full : e.current.count = e.cap
  · have nodeFull : e.nodeSide.current.count = e.nodeSide.cap := full
    rw [if_pos full, if_pos nodeFull, nodeSide]
    dsimp only
    rw [List.map_append]
    rfl
  · have nodeOpen : ¬e.nodeSide.current.count = e.nodeSide.cap := full
    rw [if_neg full, if_neg nodeOpen]
    rfl

theorem nodeSide_appended (depth : Nat) (leaves : List Node) :
    (appended V depth leaves).nodeSide = leaves.foldl (EpochIMT.append V) (EpochIMT.new V depth) := by
  have general : ∀ (leaves : List Node) (e : PoseidonEpochIMT),
      (leaves.foldl (fun e leaf => (e.append V leaf).1) e).nodeSide =
        leaves.foldl (EpochIMT.append V) e.nodeSide := by
    intro leaves
    induction leaves with
    | nil => exact fun _ => rfl
    | cons leaf leaves ih =>
      intro e
      rw [List.foldl_cons, List.foldl_cons, ih, nodeSide_append]
  exact general leaves (new V depth)

/-- The trees keep the leaves, epoch by epoch. -/
structure Keeps (V : Primitives) (e : PoseidonEpochIMT) (leaves : List Node) : Prop where
  holds : e.nodeSide.HoldsAll V leaves
  kept : ∀ (epoch : Nat) (t : PoseidonIMT256), e.trees[epoch]? = some t →
    t.Keeps e.depth (epochLeaves e.depth leaves epoch)

/-- A new tree keeps no leaves. -/
theorem Keeps.new (V : Primitives) (depth : Nat) : Keeps V (new V depth) [] where
  holds := EpochIMT.HoldsAll.new V depth
  kept := by
    intro epoch t found
    have first : epoch = 0 ∧ t = PoseidonIMT256.new V depth := by
      change [PoseidonIMT256.new V depth][epoch]? = some t at found
      cases epoch with
      | zero => exact ⟨rfl, (Option.some.inj found).symm⟩
      | succ epoch => exact nomatch found
    rw [first.2]
    exact ⟨rfl, by simp [epochLeaves, PoseidonIMT256.new, IMT256.new],
      by simp [epochLeaves, PoseidonIMT256.new]⟩

theorem Keeps.length {e : PoseidonEpochIMT} {leaves : List Node} (keeps : Keeps V e leaves) :
    leaves.length = e.finalized.length * 2 ^ e.depth + e.current.count := by
  have counted := keeps.holds.length
  rw [nodeSide, List.length_map] at counted
  exact counted

theorem Keeps.room {e : PoseidonEpochIMT} {leaves : List Node} (keeps : Keeps V e leaves) :
    e.current.count ≤ 2 ^ e.depth := by
  have within := keeps.holds.current.within
  rw [← keeps.holds.current.count, keeps.holds.depth] at within
  exact within

theorem keeps_append {t : PoseidonIMT256} {depth : Nat} {leaves : List Node}
    (keeps : t.Keeps depth leaves) (leaf : Node) :
    (t.append V leaf).Keeps depth (leaves ++ [leaf]) where
  depth := keeps.depth
  count := by
    rw [List.length_append, ← keeps.count]
    rfl
  leaves := congrArg (· ++ [leaf]) keeps.leaves

/-- A tree that keeps its leaves keeps the next. -/
theorem Keeps.append {e : PoseidonEpochIMT} {leaves : List Node} (keeps : Keeps V e leaves)
    (leaf : Node) : Keeps V (e.append V leaf).1 (leaves ++ [leaf]) := by
  have length := keeps.length
  have room := keeps.room
  refine ⟨?_, ?_⟩
  · rw [nodeSide_append]
    exact keeps.holds.append leaf
  · rw [PoseidonEpochIMT.append]
    by_cases full : e.current.count = e.cap
    · rw [if_pos full]
      rw [full, cap] at length
      intro epoch t found
      change (e.trees ++ [(PoseidonIMT256.new V e.depth).append V leaf])[epoch]? = some t at found
      have trees : e.trees.length = e.finalized.length + 1 := by
        rw [PoseidonEpochIMT.trees, List.length_append, List.length_singleton]
      rcases Nat.lt_or_ge epoch e.trees.length with old | last
      · rw [List.getElem?_append_left old] at found
        have closed : (epoch + 1) * 2 ^ e.depth ≤ leaves.length := by
          rw [length, ← Nat.succ_mul]
          exact Nat.mul_le_mul_right _ (by omega)
        change t.Keeps e.depth (epochLeaves e.depth (leaves ++ [leaf]) epoch)
        rw [epochLeaves_append leaf closed]
        exact keeps.kept epoch t found
      · rw [List.getElem?_append_right last, List.getElem?_singleton] at found
        split_ifs at found with here
        obtain rfl := Option.some.inj found
        have same : epoch = e.finalized.length + 1 := by omega
        have started : epoch * 2 ^ e.depth = leaves.length := by
          rw [length, same, Nat.succ_mul]
        have none : epochLeaves e.depth leaves epoch = [] := by
          rw [epochLeaves, started, List.drop_length, List.take_nil]
        have only : epochLeaves e.depth (leaves ++ [leaf]) epoch = [] ++ [leaf] := by
          have positive := Nat.two_pow_pos e.depth
          rw [epochLeaves_append_last leaf started.le (by rw [Nat.succ_mul]; omega), none]
        change ((PoseidonIMT256.new V e.depth).append V leaf).Keeps e.depth
          (epochLeaves e.depth (leaves ++ [leaf]) epoch)
        rw [only]
        exact keeps_append ⟨rfl, rfl, rfl⟩ leaf
    · rw [if_neg full]
      rw [cap] at full
      intro epoch t found
      change (e.finalized ++ [e.current.append V leaf])[epoch]? = some t at found
      change t.Keeps e.depth (epochLeaves e.depth (leaves ++ [leaf]) epoch)
      rcases Nat.lt_or_ge epoch e.finalized.length with old | last
      · rw [List.getElem?_append_left old] at found
        have closed : (epoch + 1) * 2 ^ e.depth ≤ leaves.length := by
          rw [length]
          exact (Nat.mul_le_mul_right _ (Nat.succ_le_of_lt old)).trans (Nat.le_add_right _ _)
        rw [epochLeaves_append leaf closed]
        apply keeps.kept epoch t
        rw [PoseidonEpochIMT.trees, List.getElem?_append_left old]
        exact found
      · rw [List.getElem?_append_right last, List.getElem?_singleton] at found
        split_ifs at found with here
        obtain rfl := Option.some.inj found
        obtain rfl : epoch = e.finalized.length := by omega
        rw [epochLeaves_append_last leaf (by omega) (by rw [Nat.succ_mul]; omega)]
        apply keeps_append _ leaf
        apply keeps.kept e.finalized.length e.current
        rw [PoseidonEpochIMT.trees, List.getElem?_append_right (Nat.le_refl _), Nat.sub_self]
        rfl

/-- The trees keep what was appended. -/
theorem keeps_appended (V : Primitives) (depth : Nat) (leaves : List Node) :
    Keeps V (appended V depth leaves) leaves := by
  have general : ∀ (more leaves : List Node) (e : PoseidonEpochIMT), Keeps V e leaves →
      Keeps V (more.foldl (fun e leaf => (e.append V leaf).1) e) (leaves ++ more) := by
    intro more
    induction more with
    | nil =>
      intro leaves e keeps
      rw [List.append_nil]
      exact keeps
    | cons leaf more ih =>
      intro leaves e keeps
      have next := ih _ _ (keeps.append leaf)
      rw [List.append_assoc] at next
      exact next
  exact general leaves [] _ (Keeps.new V depth)

theorem depth_appended (V : Primitives) (depth : Nat) (leaves : List Node) :
    (appended V depth leaves).depth = depth := by
  have nodes := congrArg EpochIMT.depth (nodeSide_appended (V := V) depth leaves)
  have general : ∀ (leaves : List Node) (e : EpochIMT),
      (leaves.foldl (EpochIMT.append V) e).depth = e.depth := by
    intro leaves
    induction leaves with
    | nil => exact fun _ => rfl
    | cons leaf leaves ih =>
      intro e
      rw [List.foldl_cons, ih, EpochIMT.append_depth]
  rw [general] at nodes
  exact nodes

theorem Keeps.root {e : PoseidonEpochIMT} {leaves : List Node} (keeps : Keeps V e leaves)
    {epoch : Nat} {t : PoseidonIMT256} (found : e.trees[epoch]? = some t) :
    t.root = rootOver V e.depth (epochLeaves e.depth leaves epoch) := by
  rw [trees] at found
  rcases Nat.lt_or_ge epoch e.finalized.length with old | last
  · rw [List.getElem?_append_left old] at found
    apply keeps.holds.finalized epoch t.toIMT256
    rw [nodeSide, List.getElem?_map, found]
    rfl
  · rw [List.getElem?_append_right last, List.getElem?_singleton] at found
    split_ifs at found with here
    obtain rfl := Option.some.inj found
    obtain rfl : epoch = e.finalized.length := by omega
    have current := keeps.holds.current.root
    rw [keeps.holds.depth] at current
    have count : e.nodeSide.finalized.length = e.finalized.length := List.length_map _
    rw [count] at current
    exact current

/-- Where an appended leaf is put. -/
theorem Keeps.location {e : PoseidonEpochIMT} {leaves : List Node} (keeps : Keeps V e leaves)
    (leaf : Node) :
    (e.append V leaf).2 = (leaves.length / 2 ^ e.depth, leaves.length % 2 ^ e.depth) := by
  have length := keeps.length
  have room := keeps.room
  have positive := Nat.two_pow_pos e.depth
  rw [PoseidonEpochIMT.append]
  by_cases full : e.current.count = e.cap
  · rw [if_pos full]
    rw [full, cap, ← Nat.succ_mul] at length
    rw [length, Nat.mul_div_cancel _ positive, Nat.mul_mod_left]
  · rw [if_neg full]
    rw [cap] at full
    have below : e.current.count < 2 ^ e.depth := by omega
    rw [length, Nat.add_comm, Nat.add_mul_div_right _ _ positive, Nat.div_eq_of_lt below,
      Nat.zero_add, Nat.add_mul_mod_self_right, Nat.mod_eq_of_lt below]

/-- Both trees foresee the same root. -/
theorem rootAfter_eq (e : PoseidonEpochIMT) (leaves : List Node) :
    e.rootAfter V leaves = e.nodeSide.rootAfter V leaves := by
  have general : ∀ (leaves : List Node) (tree : IMT256),
      (leaves.foldl (fun (filled, count, _) leaf =>
        let (filled, count) :=
          if count = e.cap then ((List.range e.depth).map (zeroRoot V), 0) else (filled, count)
        let (filled, root) := Frontier.climb V.wideHash2 zeroHash filled count leaf
        (filled, count + 1, root)) (tree.filled, tree.count, tree.root)).2.2 =
        (leaves.foldl (fun tree leaf => (e.nodeSide.openTree V tree).append V leaf) tree).root := by
    intro leaves
    induction leaves with
    | nil => exact fun _ => rfl
    | cons leaf leaves ih =>
      intro tree
      rw [List.foldl_cons, List.foldl_cons]
      by_cases full : tree.count = e.cap
      · have opened : e.nodeSide.openTree V tree = IMT256.new V e.depth := if_pos full
        have next := ih ((IMT256.new V e.depth).append V leaf)
        rw [opened, ← next]
        simp only [full, if_true]
        rfl
      · have opened : e.nodeSide.openTree V tree = tree := if_neg full
        have next := ih (tree.append V leaf)
        rw [opened, ← next]
        simp only [full, if_false]
        rfl
  exact general leaves e.current.toIMT256

/-- **The epoch trees.** After any appends the root of each epoch is the root of the full tree
over its leaves, appending puts the next leaf at the next place, the predicted root is the
current root after appending, and the path of every leaf leads to the root of its epoch. -/
theorem epochs_faithful (V : Primitives) (depth : Nat) (leaves : List Node) :
    (∀ (epoch : Nat) (root : Node), (appended V depth leaves).rootAt epoch = some root →
      root = rootOver V depth (epochLeaves depth leaves epoch)) ∧
    (∀ leaf, ((appended V depth leaves).append V leaf).2 =
      (leaves.length / 2 ^ depth, leaves.length % 2 ^ depth)) ∧
    (∀ more, (appended V depth leaves).rootAfter V more =
      (appended V depth (leaves ++ more)).currentRoot) ∧
    (∀ (number : Nat) (leaf : Node), leaves[number]? = some leaf →
      ∃ path root,
        (appended V depth leaves).pathFor V (number / 2 ^ depth : Nat) (number % 2 ^ depth) =
          some (path, root) ∧
        (appended V depth leaves).rootAt (number / 2 ^ depth : Nat) = some root ∧
        verifyPath256 V root leaf path = true) := by
  have keeps := keeps_appended V depth leaves
  have depths := depth_appended V depth leaves
  refine ⟨?_, ?_, ?_, ?_⟩
  · intro epoch root at_epoch
    rw [rootAt, if_neg (by omega), Int.toNat_natCast] at at_epoch
    obtain ⟨t, found, rfl⟩ := Option.map_eq_some_iff.mp at_epoch
    rw [← depths]
    exact keeps.root found
  · intro leaf
    rw [keeps.location leaf, depths]
  · intro more
    have nodes : (appended V depth (leaves ++ more)).currentRoot =
        (appended V depth (leaves ++ more)).nodeSide.currentRoot := rfl
    rw [rootAfter_eq, nodes, nodeSide_appended, nodeSide_appended, List.foldl_append,
      EpochIMT.currentRoot_foldl_append]
  · intro number leaf here
    have inside := (List.getElem?_eq_some_iff.mp here).1
    have positive := Nat.two_pow_pos depth
    have length := keeps.length
    have room := keeps.room
    rw [depths] at length room
    have started : number / 2 ^ depth < (appended V depth leaves).trees.length := by
      rw [trees, List.length_append, List.length_singleton]
      apply Nat.div_lt_of_lt_mul
      rw [Nat.mul_comm, Nat.succ_mul]
      omega
    have kept := keeps.kept _ _ (List.getElem?_eq_getElem started)
    have root := keeps.root (List.getElem?_eq_getElem started)
    rw [depths] at kept root
    have placed : (epochLeaves depth leaves (number / 2 ^ depth))[number % 2 ^ depth]? =
        some leaf := by
      rw [epochLeaves, List.getElem?_take_of_lt (Nat.mod_lt _ positive), List.getElem?_drop,
        Nat.div_add_mod', here]
    refine ⟨_, _, ?_, ?_, kept.verifyPath root (List.length_take_le _ _) placed⟩
    · rw [pathFor, if_neg (Int.not_lt.mpr (Int.natCast_nonneg _)), Int.toNat_natCast, List.getElem?_eq_getElem started]
      rfl
    · rw [rootAt, if_neg (Int.not_lt.mpr (Int.natCast_nonneg _)), Int.toNat_natCast,
        List.getElem?_eq_getElem started]
      rfl

open Testnet in
/-- Three leaves at depth one: the third lies in the second epoch. -/
theorem epochs_of_three :
    ∃ path root,
      (appended (primitives checksum) 1 [[1], [2], [3]]).pathFor (primitives checksum) 1 0 =
        some (path, root) ∧
      (appended (primitives checksum) 1 [[1], [2], [3]]).rootAt 1 = some root ∧
      verifyPath256 (primitives checksum) root [3] path = true :=
  (epochs_faithful (primitives checksum) 1 [[1], [2], [3]]).2.2.2 2 [3] rfl

end PoseidonEpochIMT

end Obscura
