import Obscura.Books

/-! # Spend anchors

Every leaf of the commitment tree lies in an epoch whose root is a spend anchor. The
anchors are the roots of the finalized epochs, which stay for good, and a window of
recent roots of the current one. Old roots leave the window one by one; a root that is
final stays an anchor.
-/

namespace Obscura

open Wire Tx

/-! ## The window -/

/-- The anchors are the final roots and the roots in the window. -/
structure Windowed (L : Ledger) : Prop where
  anchors : ∀ key, inSet L.cmRoots key = true ↔ inSet L.cmFinal key = true ∨ key ∈ L.cmRootOrder
  distinct : L.cmRootOrder.Nodup
  bounded : L.cmRootOrder.length ≤ Config.maxAnchorWindow

theorem inSet_markAll_iff {set : GoMap Bool} {keys : List Bytes} {key : Bytes} :
    inSet (markAll set keys) key = true ↔ key ∈ keys ∨ inSet set key = true := by
  constructor
  · exact inSet_markAll
  · rintro (member | old)
    · exact inSet_markAll_mem member
    · exact inSet_markAll_old old

theorem inSet_insert_iff {set : GoMap Bool} {key other : Bytes} :
    inSet (set.insert key true) other = true ↔ other = key ∨ inSet set other = true := by
  unfold inSet
  rw [OrdMap.lookup_insert]
  by_cases same : key = other
  · simp [same]
  · simp [same, Ne.symm same]

theorem inSet_eraseAll_iff {set : GoMap Bool} {keys : List Bytes} {key : Bytes} :
    inSet (OrdMap.eraseAll set keys) key = true ↔ key ∉ keys ∧ inSet set key = true := by
  unfold inSet
  rw [OrdMap.lookup_eraseAll]
  by_cases erased : key ∈ keys
  · simp [erased]
  · simp [erased]

/-- What recording the roots of the trees does. -/
structure Recorded (L L' : Ledger) : Prop where
  windowed : Windowed L'
  final : ∀ key, inSet L'.cmFinal key = true ↔
    (∃ tree ∈ L.cmTree.finalized, key = hexstr tree.root) ∨ inSet L.cmFinal key = true
  current : inSet L'.cmRoots (hexstr L.cmTree.currentRoot) = true

/-- **Recording anchors.** -/
theorem Windowed.record {L : Ledger} (windowed : Windowed L) (some : L.cmTree.totalCount ≠ 0) :
    Recorded L (recordCMAnchor L) := by
  obtain ⟨anchors, distinct, bounded⟩ := windowed
  unfold recordCMAnchor
  rw [if_neg some]
  dsimp only
  generalize finals : (L.cmTree.finalized.map fun tree => hexstr tree.root) = keys
  generalize same : hexstr L.cmTree.currentRoot = cur
  have isFinal : ∀ key, inSet (markAll L.cmFinal keys) key = true ↔
      (∃ tree ∈ L.cmTree.finalized, key = hexstr tree.root) ∨ inSet L.cmFinal key = true := by
    intro key
    rw [inSet_markAll_iff, ← finals, List.mem_map]
    simp only [eq_comm]
  -- The sets before anything leaves the window.
  have union : ∀ key, inSet (markAll L.cmRoots keys) key = true ↔
      inSet (markAll L.cmFinal keys) key = true ∨ key ∈ L.cmRootOrder := by
    intro key
    rw [inSet_markAll_iff, inSet_markAll_iff, anchors, or_assoc]
  by_cases known : inSet (markAll L.cmRoots keys) cur = true
  · have excess : L.cmRootOrder.length - Config.maxAnchorWindow = 0 := Nat.sub_eq_zero_of_le bounded
    simp only [known, ↓reduceIte, excess, List.take_zero, List.filter_nil, List.drop_zero]
    refine ⟨⟨?_, distinct, bounded⟩, isFinal, ?_⟩
    · exact union
    · rw [same]
      exact known
  · have new : cur ∉ L.cmRootOrder := fun member => known ((union cur).mpr (Or.inr member))
    have longer : (L.cmRootOrder ++ [cur]).Nodup := by
      rw [List.nodup_append]
      refine ⟨distinct, List.nodup_singleton cur, ?_⟩
      rintro key member _ single rfl
      rw [List.mem_singleton.mp single] at member
      exact new member
    have length : (L.cmRootOrder ++ [cur]).length = L.cmRootOrder.length + 1 := by
      rw [List.length_append, List.length_singleton]
    simp only [known, Bool.false_eq_true, ↓reduceIte]
    generalize order : L.cmRootOrder ++ [cur] = roots at longer length ⊢
    generalize excess : roots.length - Config.maxAnchorWindow = gone
    have parts : ∀ key, key ∈ roots ↔ key ∈ roots.take gone ∨ key ∈ roots.drop gone := by
      intro key
      rw [← List.mem_append, List.take_append_drop]
    have apart : ∀ key ∈ roots.take gone, key ∉ roots.drop gone := by
      intro key taken dropped
      rw [← List.take_append_drop gone roots, List.nodup_append] at longer
      exact longer.2.2 key taken key dropped rfl
    have stays : cur ∈ roots.drop gone := by
      have position : gone ≤ L.cmRootOrder.length := by
        unfold Config.maxAnchorWindow at excess bounded
        omega
      rw [← order, List.drop_append_of_le_length position]
      exact List.mem_append_right _ List.mem_cons_self
    have all : ∀ key, inSet (OrdMap.eraseAll ((markAll L.cmRoots keys).insert cur true)
        ((roots.take gone).filter fun oldest => !inSet (markAll L.cmFinal keys) oldest)) key = true ↔
        inSet (markAll L.cmFinal keys) key = true ∨ key ∈ roots.drop gone := by
      intro key
      have listed : key ∈ roots ↔ key = cur ∨ key ∈ L.cmRootOrder := by
        rw [← order, List.mem_append, List.mem_singleton, or_comm]
      rw [inSet_eraseAll_iff, inSet_insert_iff, union, List.mem_filter]
      by_cases final : inSet (markAll L.cmFinal keys) key = true
      · simp [final]
      · have kept := parts key
        have disjoint := apart key
        simp only [final, Bool.not_false, and_true, Bool.false_eq_true, false_or]
        rw [← listed, kept]
        constructor
        · rintro ⟨remains, taken | dropped⟩
          · exact absurd taken remains
          · exact dropped
        · exact fun dropped => ⟨fun taken => disjoint taken dropped, Or.inr dropped⟩
    refine ⟨⟨all, longer.sublist (List.drop_sublist _ _), ?_⟩, isFinal, ?_⟩
    · change (roots.drop gone).length ≤ _
      rw [List.length_drop]
      omega
    · rw [same]
      exact (all cur).mpr (Or.inr stays)

/-! ## Behind a block -/

/-- The roots of the finished epochs. -/
def finalRoots (tree : EpochIMT) : List Bytes := tree.finalized.map fun epoch => hexstr epoch.root

/-- The window once the roots of a tree are recorded: the current root comes in at the end, unless
it is an anchor already, and the oldest root leaves a full window. -/
def anchorWindow (L : Ledger) (tree : EpochIMT) : List Bytes :=
  let cur := hexstr tree.currentRoot
  if tree.totalCount = 0 ∨ cur ∈ finalRoots tree ∨ inSet L.cmFinal cur = true ∨
      cur ∈ L.cmRootOrder then
    L.cmRootOrder
  else
    (L.cmRootOrder ++ [cur]).drop (L.cmRootOrder.length + 1 - Config.maxAnchorWindow)

/-- The anchors behind a block: the final roots, those of the epochs that it finishes, and the
window. -/
def AnchorBehind (V : Primitives) (L : Ledger) (txs : List Transaction) (key : Bytes) : Prop :=
  let tree := (cmLeavesFromTxs txs).foldl (EpochIMT.append V) L.cmTree
  inSet L.cmFinal key = true ∨ tree.totalCount ≠ 0 ∧ key ∈ finalRoots tree ∨
    key ∈ anchorWindow L tree

/-- What recording leaves as the window. -/
theorem Windowed.order {L : Ledger} (windowed : Windowed L) (tree : EpochIMT) :
    (recordCMAnchor { L with cmTree := tree }).cmRootOrder = anchorWindow L tree := by
  unfold recordCMAnchor anchorWindow
  by_cases none : tree.totalCount = 0
  · rw [if_pos none, if_pos (Or.inl none)]
  rw [if_neg none]
  dsimp only
  have known : inSet (markAll L.cmRoots (finalRoots tree)) (hexstr tree.currentRoot) = true ↔
      hexstr tree.currentRoot ∈ finalRoots tree ∨ inSet L.cmFinal (hexstr tree.currentRoot) = true ∨
        hexstr tree.currentRoot ∈ L.cmRootOrder := by
    rw [inSet_markAll_iff, windowed.anchors]
  unfold finalRoots at known ⊢
  by_cases old : inSet (markAll L.cmRoots (tree.finalized.map fun epoch => hexstr epoch.root))
      (hexstr tree.currentRoot) = true
  · rw [if_pos old, if_pos (Or.inr (known.mp old)),
      Nat.sub_eq_zero_of_le windowed.bounded, List.drop_zero]
  · rw [if_neg old, if_neg (not_or.mpr ⟨none, fun anchor => old (known.mpr anchor)⟩),
      List.length_append, List.length_singleton]

/-- **The anchors behind a block.** -/
theorem Windowed.behind {V : Primitives} {L : Ledger} (windowed : Windowed L)
    (txs : List Transaction) (key : Bytes) :
    inSet (applyLeaves V txs L).cmRoots key = true ↔ AnchorBehind V L txs key := by
  unfold applyLeaves AnchorBehind
  generalize (cmLeavesFromTxs txs).foldl (EpochIMT.append V) L.cmTree = tree
  dsimp only
  rw [← windowed.order tree]
  have before : Windowed { L with cmTree := tree } :=
    ⟨windowed.anchors, windowed.distinct, windowed.bounded⟩
  by_cases none : tree.totalCount = 0
  · have same : recordCMAnchor { L with cmTree := tree } = { L with cmTree := tree } := if_pos none
    rw [same, before.anchors]
    simp [none]
  · obtain ⟨recorded, final, -⟩ := before.record none
    have made : key ∈ finalRoots tree ↔ ∃ epoch ∈ tree.finalized, key = hexstr epoch.root := by
      rw [finalRoots, List.mem_map]
      simp only [eq_comm]
    rw [recorded.anchors, final, ← made]
    simp only [ne_eq, none, not_false_eq_true, true_and]
    rw [← or_assoc, or_comm (a := inSet L.cmFinal key = true)]

/-! ## Chains -/

/-- The trees hold the leaves, and the anchors cover the trees. -/
structure Covered (V : Primitives) (L : Ledger) (leaves : List Node) : Prop where
  depth : L.cmTree.depth = Config.zkDepth
  trees : L.cmTree.HoldsAll V leaves
  windowed : Windowed L
  final : ∀ tree ∈ L.cmTree.finalized, inSet L.cmFinal (hexstr tree.root) = true
  current : leaves ≠ [] → inSet L.cmRoots (hexstr L.cmTree.currentRoot) = true

section Chain

variable {V : Primitives}

/-- A block keeps the trees and the anchors covered, and no final root is lost. -/
theorem Covered.step {L L' : Ledger} {b : Block} {cb : Transaction} {leaves : List Node}
    (covered : Covered V L leaves) (applied : Applied V L b cb L') :
    Covered V L' (leaves ++ cmLeavesFromTxs b.txs) ∧
      ∀ key, inSet L.cmFinal key = true → inSet L'.cmFinal key = true := by
  have trees := covered.trees.appendAll (cmLeavesFromTxs b.txs)
  have windowed : Windowed { L with
      cmTree := (cmLeavesFromTxs b.txs).foldl (EpochIMT.append V) L.cmTree } :=
    ⟨covered.windowed.anchors, covered.windowed.distinct, covered.windowed.bounded⟩
  have depth : L'.cmTree.depth = Config.zkDepth := by
    rw [applied.cmTree, foldl_append_depth, covered.depth]
  by_cases none : leaves ++ cmLeavesFromTxs b.txs = []
  · have count := trees.totalCount
    rw [none, List.length_nil] at count
    have same : applyLeaves V b.txs L = { L with
        cmTree := (cmLeavesFromTxs b.txs).foldl (EpochIMT.append V) L.cmTree } := by
      rw [applyLeaves, recordCMAnchor, if_pos count]
    obtain ⟨rfl, noLeaves⟩ := List.append_eq_nil_iff.mp none
    have tree : L'.cmTree = L.cmTree := by
      rw [applied.cmTree, noLeaves]
      rfl
    have roots : L'.cmRoots = L.cmRoots := by rw [applied.cmRoots, same]
    have final : L'.cmFinal = L.cmFinal := by rw [applied.cmFinal, same]
    have order : L'.cmRootOrder = L.cmRootOrder := by rw [applied.cmRootOrder, same]
    rw [noLeaves, List.append_nil, final]
    refine ⟨⟨depth, ?_, ⟨?_, ?_, ?_⟩, ?_, fun some => absurd rfl some⟩, fun _ known => known⟩
    · rw [tree]
      exact covered.trees
    · rw [roots, final, order]
      exact covered.windowed.anchors
    · rw [order]
      exact covered.windowed.distinct
    · rw [order]
      exact covered.windowed.bounded
    · rw [tree, final]
      exact covered.final
  · have count : (((cmLeavesFromTxs b.txs).foldl (EpochIMT.append V) L.cmTree).totalCount) ≠ 0 := by
      rw [trees.totalCount]
      exact fun zero => none (List.length_eq_zero_iff.mp zero)
    have recorded := windowed.record count
    have old : ∀ key, inSet L.cmFinal key = true → inSet L'.cmFinal key = true := by
      intro key known
      rw [applied.cmFinal]
      exact (recorded.final key).mpr (Or.inr known)
    refine ⟨⟨depth, ?_, ⟨?_, ?_, ?_⟩, ?_, fun _ => ?_⟩, old⟩
    · rw [applied.cmTree]
      exact trees
    · rw [applied.cmRoots, applied.cmFinal, applied.cmRootOrder]
      exact recorded.windowed.anchors
    · rw [applied.cmRootOrder]
      exact recorded.windowed.distinct
    · rw [applied.cmRootOrder]
      exact recorded.windowed.bounded
    · intro tree member
      rw [applied.cmTree] at member
      rw [applied.cmFinal]
      exact (recorded.final _).mpr (Or.inl ⟨tree, member, rfl⟩)
    · rw [applied.cmRoots, applied.cmTree]
      exact recorded.current

theorem Covered.genesis : Covered V (genesisLedger V) [] := by
  have empty : Covered V (.empty V) [] := by
    refine ⟨rfl, EpochIMT.HoldsAll.new V _, ⟨?_, List.nodup_nil, Nat.zero_le _⟩, ?_, ?_⟩
    · simp [inSet, Ledger.empty]
    · exact fun tree member => absurd member List.not_mem_nil
    · exact fun some => absurd rfl some
  exact (empty.step genesis_applied.2).1

theorem Chained.covered {chain : List Block} (chained : Chained V (Admitted V) chain) :
    Covered V (replay V chain) (notesMinted chain) := by
  induction chain with
  | nil => exact Covered.genesis
  | cons b older ih =>
    obtain ⟨_, _, applied⟩ := chained.last fun _ _ admitted => admitted
    exact ((ih chained.1).step applied).1

/-- Final roots stay final. -/
theorem Chained.final_above {newer older : List Block}
    (chained : Chained V (Admitted V) (newer ++ older)) {key : Bytes}
    (final : inSet (replay V older).cmFinal key = true) :
    inSet (replay V (newer ++ older)).cmFinal key = true := by
  induction newer with
  | nil => exact final
  | cons b newer ih =>
    rw [List.cons_append] at chained
    obtain ⟨_, _, applied⟩ := chained.last fun _ _ admitted => admitted
    exact (chained.1.covered.step applied).2 key (ih chained.1)

theorem Covered.finalized {L : Ledger} {leaves : List Node} (covered : Covered V L leaves)
    {epoch : Nat} (left : epoch < L.cmTree.finalized.length) :
    inSet L.cmFinal (hexstr (epochRoot V leaves epoch)) = true := by
  have found := List.getElem?_eq_getElem left
  have root := covered.trees.finalized epoch _ found
  rw [covered.depth] at root
  rw [epochRoot, ← root]
  exact covered.final _ (List.getElem_mem left)

/-- Where a leaf lies. -/
theorem Covered.epoch {L : Ledger} {leaves : List Node} (covered : Covered V L leaves)
    {number : Nat} (listed : number < leaves.length) :
    number / 2 ^ Config.zkDepth ≤ L.cmTree.finalized.length := by
  have length := covered.trees.length
  have within := covered.trees.current.within
  rw [← covered.trees.current.count, covered.trees.depth, covered.depth] at within
  rw [EpochIMT.cap, covered.depth] at length
  generalize 2 ^ Config.zkDepth = cap at length within ⊢
  have below : number < (L.cmTree.finalized.length + 1) * cap := by
    rw [Nat.succ_mul]
    omega
  have started := Nat.div_lt_of_lt_mul (n := cap) (k := L.cmTree.finalized.length + 1)
    (by rw [Nat.mul_comm]; exact below)
  omega

theorem Covered.anchored {L : Ledger} {leaves : List Node} (covered : Covered V L leaves)
    {number : Nat} (listed : number < leaves.length) :
    inSet L.cmRoots (hexstr (epochRoot V leaves (number / 2 ^ Config.zkDepth))) = true := by
  rcases Nat.lt_or_eq_of_le (covered.epoch listed) with left | last
  · exact (covered.windowed.anchors _).mpr (Or.inl (covered.finalized left))
  · have some : leaves ≠ [] := by
      rintro rfl
      exact absurd listed (Nat.not_lt_zero _)
    have root := covered.trees.current.root
    rw [covered.trees.depth, covered.depth, ← last] at root
    have anchor := covered.current some
    rwa [EpochIMT.currentRoot, root] at anchor

theorem Covered.left {L : Ledger} {leaves : List Node} (covered : Covered V L leaves)
    {epoch : Nat} (next : (epoch + 1) * 2 ^ Config.zkDepth < leaves.length) :
    inSet L.cmFinal (hexstr (epochRoot V leaves epoch)) = true := by
  refine covered.finalized ?_
  have there := covered.epoch next
  rw [Nat.mul_div_cancel _ (Nat.two_pow_pos _)] at there
  exact there

/-- **Anchors.** Every leaf can be spent against the root of its epoch, the anchors are the
final roots and a bounded window, and what is final never leaves. -/
theorem anchors_kept {newer older : List Block}
    (chained : Chained V (Admitted V) (newer ++ older)) :
    let L := replay V (newer ++ older)
    let leaves := notesMinted (newer ++ older)
    (∀ number, number < leaves.length →
      inSet L.cmRoots (hexstr (epochRoot V leaves (number / 2 ^ Config.zkDepth))) = true) ∧
    (∀ key, inSet L.cmRoots key = true ↔
      inSet L.cmFinal key = true ∨ key ∈ L.cmRootOrder) ∧
    L.cmRootOrder.Nodup ∧ L.cmRootOrder.length ≤ Config.maxAnchorWindow ∧
    (∀ epoch, (epoch + 1) * 2 ^ Config.zkDepth < leaves.length →
      inSet L.cmFinal (hexstr (epochRoot V leaves epoch)) = true) ∧
    (∀ key, inSet (replay V older).cmFinal key = true → inSet L.cmRoots key = true) := by
  have covered := chained.covered
  refine ⟨fun number listed => covered.anchored listed, covered.windowed.anchors,
    covered.windowed.distinct, covered.windowed.bounded, fun epoch next => covered.left next, ?_⟩
  intro key final
  exact (covered.windowed.anchors key).mpr (Or.inl (chained.final_above final))

end Chain

end Obscura
