import Obscura.Replay

/-! # The commitment tree

Each tree of the epoch sequence holds the leaves of its epoch, and its root is that
of the perfect tree over them. So every anchor a block may spend against is the root
of an epoch as it was after some of the leaves (`Anchored`), along every chain.
-/

namespace Obscura

open Wire Tx Checked

section Tree

variable (V : Primitives)

/-- The root over a list of leaves. -/
def rootOver (depth : Nat) (leaves : List Node) : Node :=
  Frontier.perfectRoot V.wideHash2 depth (Frontier.padded zeroHash leaves)

/-- A tree that was filled with `leaves`. -/
structure IMT256.Holds (tree : IMT256) (leaves : List Node) : Prop where
  count : tree.count = leaves.length
  within : leaves.length ≤ 2 ^ tree.depth
  levels : tree.filled.length = tree.depth
  root : tree.root = rootOver V tree.depth leaves
  frontier : Frontier.Fits V.wideHash2 (Frontier.padded zeroHash leaves) tree.filled tree.count

variable {V}

theorem IMT256.Holds.new (depth : Nat) : (IMT256.new V depth).Holds V [] where
  count := rfl
  within := Nat.zero_le _
  levels := by simp [IMT256.new]
  root := (Frontier.perfectRoot_blank zeroHash depth).symm
  frontier := Frontier.Fits.start _ _

/-- Appending a leaf to a tree with room. -/
theorem IMT256.Holds.append {tree : IMT256} {leaves : List Node} (holds : tree.Holds V leaves)
    (room : tree.count < 2 ^ tree.depth) (leaf : Node) :
    (tree.append V leaf).Holds V (leaves ++ [leaf]) := by
  have placed : Frontier.padded zeroHash (leaves ++ [leaf]) tree.count = leaf := by
    simp [Frontier.padded, holds.count]
  have blankAfter : ∀ right, tree.count < right →
      Frontier.padded zeroHash (leaves ++ [leaf]) right = zeroHash := by
    intro right after
    have outside : (leaves ++ [leaf])[right]? = none :=
      List.getElem?_eq_none (by rw [List.length_append, List.length_singleton, ← holds.count]; omega)
    rw [Frontier.padded, outside]
    rfl
  have fits : Frontier.Fits V.wideHash2 (Frontier.padded zeroHash (leaves ++ [leaf])) tree.filled
      tree.count := by
    refine holds.frontier.congr ?_
    intro left before
    rw [Frontier.padded, Frontier.padded,
      List.getElem?_append_left (by rw [← holds.count]; exact before)]
  obtain ⟨root, length, _, next⟩ :=
    Frontier.climb_spec placed blankAfter fits (by rw [holds.levels]; exact room)
  constructor
  case count => rw [IMT256.append_count, holds.count, List.length_append, List.length_singleton]
  case within =>
    rw [IMT256.append_depth, List.length_append, List.length_singleton, ← holds.count]
    omega
  case levels => exact length.trans holds.levels
  case root =>
    rw [holds.levels] at root
    exact root
  case frontier => exact next

end Tree

/-! ## The epochs -/

/-- The leaves of one epoch. -/
def epochLeaves (depth : Nat) (leaves : List Node) (epoch : Nat) : List Node :=
  (leaves.drop (epoch * 2 ^ depth)).take (2 ^ depth)

theorem epochLeaves_append {depth epoch : Nat} {leaves : List Node} (leaf : Node)
    (closed : (epoch + 1) * 2 ^ depth ≤ leaves.length) :
    epochLeaves depth (leaves ++ [leaf]) epoch = epochLeaves depth leaves epoch := by
  rw [epochLeaves, epochLeaves]
  generalize 2 ^ depth = cap at closed ⊢
  rw [Nat.add_mul, Nat.one_mul] at closed
  have inside : cap ≤ (leaves.drop (epoch * cap)).length := by
    rw [List.length_drop]
    omega
  rw [List.drop_append_of_le_length (by omega), List.take_append_of_le_length inside]

/-- A leaf joins the epoch that is open. -/
theorem epochLeaves_append_last {depth epoch : Nat} {leaves : List Node} (leaf : Node)
    (started : epoch * 2 ^ depth ≤ leaves.length)
    (room : leaves.length < (epoch + 1) * 2 ^ depth) :
    epochLeaves depth (leaves ++ [leaf]) epoch = epochLeaves depth leaves epoch ++ [leaf] := by
  rw [epochLeaves, epochLeaves]
  generalize 2 ^ depth = cap at started room ⊢
  rw [Nat.add_mul, Nat.one_mul] at room
  have short : (leaves.drop (epoch * cap)).length < cap := by
    rw [List.length_drop]
    omega
  rw [List.drop_append_of_le_length started, List.take_of_length_le short.le,
    List.take_of_length_le (by rw [List.length_append, List.length_singleton]; omega)]

/-- The trees hold the leaves, epoch by epoch. -/
structure EpochIMT.HoldsAll (V : Primitives) (e : EpochIMT) (leaves : List Node) : Prop where
  length : leaves.length = e.finalized.length * e.cap + e.current.count
  full : ∀ tree ∈ e.finalized, tree.count = e.cap
  finalized : ∀ (epoch : Nat) (tree : IMT256), e.finalized[epoch]? = some tree →
    tree.root = rootOver V e.depth (epochLeaves e.depth leaves epoch)
  depth : e.current.depth = e.depth
  current : e.current.Holds V (epochLeaves e.depth leaves e.finalized.length)

theorem EpochIMT.HoldsAll.new (V : Primitives) (depth : Nat) :
    (EpochIMT.new V depth).HoldsAll V [] where
  length := by simp [EpochIMT.new, IMT256.new]
  full := fun tree member => absurd member List.not_mem_nil
  finalized := fun epoch tree found => absurd found (by simp [EpochIMT.new])
  depth := rfl
  current := by
    have holds := IMT256.Holds.new (V := V) depth
    simpa [epochLeaves, EpochIMT.new] using holds

/-- Appending a leaf to the epochs. -/
theorem EpochIMT.HoldsAll.append {V : Primitives} {e : EpochIMT} {leaves : List Node}
    (holds : e.HoldsAll V leaves) (leaf : Node) :
    (e.append V leaf).HoldsAll V (leaves ++ [leaf]) := by
  obtain ⟨length, counts, finalized, depth, current⟩ := holds
  have within := current.within
  rw [← current.count, depth] at within
  unfold EpochIMT.append
  by_cases full : e.current.count = e.cap
  · rw [if_pos full]
    rw [full] at length
    unfold EpochIMT.cap at full length
    have closed : ∀ epoch, epoch ≤ e.finalized.length →
        epochLeaves e.depth (leaves ++ [leaf]) epoch = epochLeaves e.depth leaves epoch := by
      intro epoch below
      refine epochLeaves_append leaf ?_
      rw [length, ← Nat.succ_mul]
      exact Nat.mul_le_mul_right _ (Nat.succ_le_succ below)
    constructor
    case length =>
      change (leaves ++ [leaf]).length = (e.finalized ++ [e.current]).length * 2 ^ e.depth + (0 + 1)
      rw [List.length_append, List.length_append, List.length_singleton, List.length_singleton,
        length, Nat.add_mul]
      omega
    case full =>
      intro tree member
      rcases List.mem_append.mp member with old | last
      · exact counts tree old
      · rw [List.mem_singleton.mp last]
        exact full
    case finalized =>
      intro epoch tree found
      change (e.finalized ++ [e.current])[epoch]? = some tree at found
      change tree.root = rootOver V e.depth (epochLeaves e.depth (leaves ++ [leaf]) epoch)
      rcases Nat.lt_or_ge epoch e.finalized.length with old | last
      · rw [List.getElem?_append_left old] at found
        rw [closed epoch old.le]
        exact finalized epoch tree found
      · rw [List.getElem?_append_right last, List.getElem?_singleton] at found
        split_ifs at found with here
        obtain rfl := Option.some.inj found
        have same : epoch = e.finalized.length := by omega
        rw [same, closed _ (Nat.le_refl _), current.root, depth]
    case depth => rfl
    case current =>
      have started : (e.finalized.length + 1) * 2 ^ e.depth = leaves.length := by
        rw [length, Nat.succ_mul]
      have only : epochLeaves e.depth (leaves ++ [leaf]) (e.finalized.length + 1) = [leaf] := by
        have positive := Nat.two_pow_pos e.depth
        have none : epochLeaves e.depth leaves (e.finalized.length + 1) = [] := by
          rw [epochLeaves, started, List.drop_length, List.take_nil]
        rw [epochLeaves_append_last leaf started.le (by rw [Nat.succ_mul]; omega), none]
        rfl
      change ((IMT256.new V e.depth).append V leaf).Holds V
        (epochLeaves e.depth (leaves ++ [leaf]) (e.finalized ++ [e.current]).length)
      rw [List.length_append, List.length_singleton, only]
      exact (IMT256.Holds.new e.depth).append (Nat.two_pow_pos e.depth) leaf
  · rw [if_neg full]
    unfold EpochIMT.cap at full length
    have room : e.current.count < 2 ^ e.depth := by omega
    constructor
    case length =>
      change (leaves ++ [leaf]).length = e.finalized.length * 2 ^ e.depth + (e.current.count + 1)
      rw [List.length_append, List.length_singleton, length]
      omega
    case full => exact counts
    case finalized =>
      intro epoch tree found
      have below := (List.getElem?_eq_some_iff.mp found).1
      have closed : (epoch + 1) * 2 ^ e.depth ≤ leaves.length := by
        rw [length]
        exact (Nat.mul_le_mul_right _ (Nat.succ_le_of_lt below)).trans (Nat.le_add_right _ _)
      change tree.root = rootOver V e.depth (epochLeaves e.depth (leaves ++ [leaf]) epoch)
      rw [epochLeaves_append leaf closed]
      exact finalized epoch tree found
    case depth => exact depth
    case current =>
      have grown : epochLeaves e.depth (leaves ++ [leaf]) e.finalized.length =
          epochLeaves e.depth leaves e.finalized.length ++ [leaf] := by
        refine epochLeaves_append_last leaf (by omega) ?_
        rw [Nat.succ_mul]
        omega
      change (e.current.append V leaf).Holds V
        (epochLeaves e.depth (leaves ++ [leaf]) e.finalized.length)
      rw [grown]
      exact current.append (by rw [depth]; exact room) leaf

theorem EpochIMT.HoldsAll.appendAll {V : Primitives} {e : EpochIMT} {leaves : List Node}
    (holds : e.HoldsAll V leaves) (more : List Node) :
    (more.foldl (EpochIMT.append V) e).HoldsAll V (leaves ++ more) := by
  induction more generalizing e leaves with
  | nil => simpa using holds
  | cons leaf more ih =>
    have next := ih (holds.append leaf)
    rwa [List.append_assoc] at next

theorem EpochIMT.HoldsAll.totalCount {V : Primitives} {e : EpochIMT} {leaves : List Node}
    (holds : e.HoldsAll V leaves) : e.totalCount = leaves.length := by
  have counts : e.finalized.map IMT256.count = List.replicate e.finalized.length e.cap := by
    refine List.eq_replicate_iff.mpr ⟨List.length_map _, fun count member => ?_⟩
    obtain ⟨tree, listed, rfl⟩ := List.mem_map.mp member
    exact holds.full tree listed
  rw [EpochIMT.totalCount, counts, List.sum_replicate_nat, holds.length]

theorem EpochIMT.HoldsAll.root_of_tree {V : Primitives} {e : EpochIMT} {leaves : List Node}
    (holds : e.HoldsAll V leaves) {tree : IMT256} (member : tree ∈ e.finalized ++ [e.current]) :
    ∃ epoch, tree.root = rootOver V e.depth (epochLeaves e.depth leaves epoch) := by
  rcases List.mem_append.mp member with closed | last
  · obtain ⟨epoch, found⟩ := List.mem_iff_getElem?.mp closed
    exact ⟨epoch, holds.finalized epoch tree found⟩
  · rw [List.mem_singleton.mp last]
    refine ⟨e.finalized.length, ?_⟩
    rw [holds.current.root, holds.depth]

/-! ## Anchors -/

section Anchors

variable {V : Primitives}

/-- The root over the leaves of an epoch. -/
def epochRoot (V : Primitives) (leaves : List Node) (epoch : Nat) : Node :=
  rootOver V Config.zkDepth (epochLeaves Config.zkDepth leaves epoch)

/-- The trees hold the leaves of the chain, and every spend anchor is the root of an epoch
as it was after some of them. -/
structure Anchored (V : Primitives) (L : Ledger) (leaves : List Node) : Prop where
  depth : L.cmTree.depth = Config.zkDepth
  trees : L.cmTree.HoldsAll V leaves
  anchors : ∀ anchor, inSet L.cmRoots (hexstr anchor) = true →
    ∃ older epoch, older <+: leaves ∧ anchor = epochRoot V older epoch

theorem foldl_append_depth (leaves : List Node) (e : EpochIMT) :
    (leaves.foldl (EpochIMT.append V) e).depth = e.depth := by
  induction leaves generalizing e with
  | nil => rfl
  | cons leaf leaves ih => rw [List.foldl_cons, ih, EpochIMT.append_depth]

theorem inSet_markAll {set : GoMap Bool} {keys : List Bytes} {key : Bytes}
    (member : inSet (markAll set keys) key = true) : key ∈ keys ∨ inSet set key = true := by
  unfold inSet at member
  rw [lookup_markAll] at member
  by_cases marked : key ∈ keys
  · exact Or.inl marked
  · rw [if_neg marked] at member
    exact Or.inr member

theorem inSet_markAll_mem {set : GoMap Bool} {keys : List Bytes} {key : Bytes}
    (member : key ∈ keys) : inSet (markAll set keys) key = true := by
  unfold inSet
  rw [lookup_markAll, if_pos member]
  rfl

theorem inSet_markAll_old {set : GoMap Bool} {keys : List Bytes} {key : Bytes}
    (old : inSet set key = true) : inSet (markAll set keys) key = true := by
  unfold inSet at old ⊢
  rw [lookup_markAll]
  split
  · rfl
  · exact old

theorem inSet_eraseAll {set : GoMap Bool} {keys : List Bytes} {key : Bytes}
    (member : inSet (OrdMap.eraseAll set keys) key = true) : inSet set key = true := by
  unfold inSet at member ⊢
  rw [OrdMap.lookup_eraseAll] at member
  by_cases erased : key ∈ keys
  · simp [erased] at member
  · rwa [if_neg erased] at member

/-- A new anchor is a root of one of the trees. -/
theorem recordCMAnchor_anchors {L : Ledger} {key : Bytes}
    (member : inSet (recordCMAnchor L).cmRoots key = true) :
    inSet L.cmRoots key = true ∨
      ∃ tree ∈ L.cmTree.finalized ++ [L.cmTree.current], key = hexstr tree.root := by
  by_cases none : L.cmTree.totalCount = 0
  · rw [recordCMAnchor, if_pos none] at member
    exact Or.inl member
  · rw [recordCMAnchor, if_neg none] at member
    dsimp only at member
    have before := inSet_eraseAll member
    split at before
    case isTrue =>
      rcases inSet_markAll before with final | old
      · obtain ⟨tree, treeMember, rfl⟩ := List.mem_map.mp final
        exact Or.inr ⟨tree, List.mem_append_left _ treeMember, rfl⟩
      · exact Or.inl old
    case isFalse =>
      unfold inSet at before
      rw [OrdMap.lookup_insert] at before
      split at before
      case isTrue same => exact Or.inr ⟨L.cmTree.current, by simp, same.symm⟩
      case isFalse =>
        rcases inSet_markAll before with final | old
        · obtain ⟨tree, treeMember, rfl⟩ := List.mem_map.mp final
          exact Or.inr ⟨tree, List.mem_append_left _ treeMember, rfl⟩
        · exact Or.inl old

theorem Anchored.step {L L' : Ledger} {b : Block} {cb : Transaction} {leaves : List Node}
    (anchored : Anchored V L leaves) (applied : Applied V L b cb L') :
    Anchored V L' (leaves ++ cmLeavesFromTxs b.txs) := by
  have trees := anchored.trees.appendAll (cmLeavesFromTxs b.txs)
  constructor
  case depth => rw [applied.cmTree, foldl_append_depth, anchored.depth]
  case trees => rw [applied.cmTree]; exact trees
  case anchors =>
    intro anchor member
    rw [applied.cmRoots] at member
    rcases recordCMAnchor_anchors member with old | ⟨tree, treeMember, same⟩
    · obtain ⟨older, epoch, earlier, root⟩ := anchored.anchors anchor old
      exact ⟨older, epoch, earlier.trans (List.prefix_append _ _), root⟩
    · obtain ⟨epoch, root⟩ := trees.root_of_tree treeMember
      rw [foldl_append_depth, anchored.depth] at root
      exact ⟨_, epoch, List.prefix_rfl, (hexstr_injective same).trans root⟩

theorem Anchored.genesis : Anchored V (genesisLedger V) [] := by
  have empty : Anchored V (.empty V) [] :=
    ⟨rfl, EpochIMT.HoldsAll.new V Config.zkDepth, by simp [inSet, Ledger.empty]⟩
  exact empty.step genesis_applied.2

end Anchors

end Obscura
