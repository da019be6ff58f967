import Mathlib.Data.List.Induction
import Mathlib.Data.Nat.Log
import Mathlib.Data.Set.Function
import Obscura.Lib.Frontier

/-! # Merkle trees of any shape

Hash trees with payloads at the leaves. The inputs hashed for a root are listed, so that
the absence of collisions is asked of these inputs only: then the root determines the
tree (`Merkle.Tree.root_inj`), and a path that opens a payload to the root descends in
the tree to the leaf of that payload (`Merkle.Tree.descend_of_opens`). Two rules build
a tree over a list level by level: a lone last node is paired with itself, or promoted.
-/

namespace Merkle

variable {γ α : Type}

/-- A binary tree with payloads at its leaves. -/
inductive Tree (γ : Type) where
  | leaf (payload : γ)
  | node (left right : Tree γ)
deriving DecidableEq

/-- What the tree hash is called on: the payload of a leaf or a pair of nodes. -/
abbrev Input (γ α : Type) := γ ⊕ (α × α)

section Hashing

variable (leafHash : γ → α) (nodeHash : α → α → α)

/-- The hash of a leaf's payload or of two nodes. -/
def hashInput : Input γ α → α
  | .inl payload => leafHash payload
  | .inr (left, right) => nodeHash left right

namespace Tree

/-- The root of a tree. -/
def root : Tree γ → α
  | leaf payload => leafHash payload
  | node left right => nodeHash left.root right.root

/-- The inputs hashed on the way to the root. -/
def inputs : Tree γ → List (Input γ α)
  | leaf payload => [.inl payload]
  | node left right =>
    .inr (left.root leafHash nodeHash, right.root leafHash nodeHash) ::
      (left.inputs ++ right.inputs)

end Tree

/-- The inputs hashed on the way up a path of siblings; `true` when the sibling is on the
left. -/
def climbInputs (node : α) : List (α × Bool) → List (Input γ α)
  | [] => []
  | (sibling, true) :: path =>
    .inr (sibling, node) :: climbInputs (nodeHash sibling node) path
  | (sibling, false) :: path =>
    .inr (node, sibling) :: climbInputs (nodeHash node sibling) path

/-- The inputs hashed to open a payload. -/
def openInputs (payload : γ) (path : List (α × Bool)) : List (Input γ α) :=
  .inl payload :: climbInputs nodeHash (leafHash payload) path

end Hashing

variable {leafHash : γ → α} {nodeHash : α → α → α}

/-- What a path hashes, and one step more. -/
theorem climbInputs_append (node : α) (path : List (α × Bool)) (sibling : α) (isLeft : Bool) :
    climbInputs (γ := γ) nodeHash node (path ++ [(sibling, isLeft)]) =
      climbInputs nodeHash node path ++
        [.inr (if isLeft then (sibling, Frontier.opens nodeHash node path)
          else (Frontier.opens nodeHash node path, sibling))] := by
  induction path generalizing node with
  | nil => cases isLeft <;> rfl
  | cons step path ih =>
    obtain ⟨hash, side⟩ := step
    cases side with
    | true =>
      have tail := ih (nodeHash hash node)
      rw [List.cons_append, climbInputs, climbInputs, tail, List.cons_append]
      rfl
    | false =>
      have tail := ih (nodeHash node hash)
      rw [List.cons_append, climbInputs, climbInputs, tail, List.cons_append]
      rfl

/-- What a path leads to was hashed on its way. -/
theorem exists_openInput (payload : γ) (path : List (α × Bool)) :
    ∃ input ∈ openInputs leafHash nodeHash payload path,
      hashInput leafHash nodeHash input = Frontier.opens nodeHash (leafHash payload) path := by
  have climb : ∀ (path : List (α × Bool)) (node : α), Frontier.opens nodeHash node path = node ∨
      ∃ input ∈ climbInputs (γ := γ) nodeHash node path,
        hashInput leafHash nodeHash input = Frontier.opens nodeHash node path := by
    intro path
    induction path with
    | nil => exact fun _ => Or.inl rfl
    | cons step path ih =>
      intro node
      obtain ⟨sibling, isLeft⟩ := step
      refine Or.inr ?_
      cases isLeft with
      | true =>
        rcases ih (nodeHash sibling node) with stays | ⟨input, member, hashed⟩
        · exact ⟨_, List.mem_cons_self, stays.symm⟩
        · exact ⟨input, List.mem_cons_of_mem _ member, hashed⟩
      | false =>
        rcases ih (nodeHash node sibling) with stays | ⟨input, member, hashed⟩
        · exact ⟨_, List.mem_cons_self, stays.symm⟩
        · exact ⟨input, List.mem_cons_of_mem _ member, hashed⟩
  rcases climb path (leafHash payload) with stays | ⟨input, member, hashed⟩
  · exact ⟨_, List.mem_cons_self, stays.symm⟩
  · exact ⟨input, List.mem_cons_of_mem _ member, hashed⟩

namespace Tree

/-! ## The root determines the tree -/

/-- **Binding.** Trees with one root are one tree while no hashed inputs collide. -/
theorem root_inj {known : Set (Input γ α)}
    (collisionFree : Set.InjOn (hashInput leafHash nodeHash) known) {first second : Tree γ}
    (firstKnown : ∀ input ∈ first.inputs leafHash nodeHash, input ∈ known)
    (secondKnown : ∀ input ∈ second.inputs leafHash nodeHash, input ∈ known)
    (same : first.root leafHash nodeHash = second.root leafHash nodeHash) : first = second := by
  induction first generalizing second with
  | leaf payload =>
    have here := firstKnown (.inl payload) List.mem_cons_self
    cases second with
    | leaf other =>
      have there := secondKnown (.inl other) List.mem_cons_self
      exact congrArg leaf (Sum.inl.inj (collisionFree here there same))
    | node left right =>
      have there := secondKnown _ List.mem_cons_self
      exact absurd (collisionFree here there same) Sum.inl_ne_inr
  | node left right ihLeft ihRight =>
    have here := firstKnown _ List.mem_cons_self
    cases second with
    | leaf other =>
      have there := secondKnown (.inl other) List.mem_cons_self
      exact absurd (collisionFree here there same) Sum.inr_ne_inl
    | node left' right' =>
      have there := secondKnown _ List.mem_cons_self
      have roots := Prod.mk.inj (Sum.inr.inj (collisionFree here there same))
      have lefts : left = left' := by
        apply ihLeft _ _ roots.1
        · intro input member
          exact firstKnown input (List.mem_cons_of_mem _ (List.mem_append_left _ member))
        · intro input member
          exact secondKnown input (List.mem_cons_of_mem _ (List.mem_append_left _ member))
      have rights : right = right' := by
        apply ihRight _ _ roots.2
        · intro input member
          exact firstKnown input (List.mem_cons_of_mem _ (List.mem_append_right _ member))
        · intro input member
          exact secondKnown input (List.mem_cons_of_mem _ (List.mem_append_right _ member))
      rw [lefts, rights]

/-! ## Openings -/

/-- The subtree below a list of turns, from the root down; `true` turns right. -/
def descend : Tree γ → List Bool → Option (Tree γ)
  | tree, [] => some tree
  | leaf _, _ :: _ => none
  | node _ right, true :: turns => right.descend turns
  | node left _, false :: turns => left.descend turns

@[simp] theorem descend_nil (tree : Tree γ) : tree.descend [] = some tree := by
  cases tree <;> rfl

/-- A descent in two parts. -/
theorem descend_append (tree : Tree γ) (turns more : List Bool) :
    tree.descend (turns ++ more) = (tree.descend turns).bind fun below => below.descend more := by
  induction turns generalizing tree with
  | nil => rw [List.nil_append, descend_nil, Option.bind_some]
  | cons turn turns ih =>
    cases tree with
    | leaf payload => rfl
    | node left right =>
      cases turn with
      | true => exact ih right
      | false => exact ih left

theorem descend_of_opens {known : Set (Input γ α)}
    (collisionFree : Set.InjOn (hashInput leafHash nodeHash) known) {tree : Tree γ}
    {payload : γ} {path : List (α × Bool)}
    (treeKnown : ∀ input ∈ tree.inputs leafHash nodeHash, input ∈ known)
    (pathKnown : ∀ input ∈ openInputs leafHash nodeHash payload path, input ∈ known)
    (opened : Frontier.opens nodeHash (leafHash payload) path = tree.root leafHash nodeHash) :
    tree.descend (path.map Prod.snd).reverse = some (leaf payload) := by
  induction path using List.reverseRecOn generalizing tree with
  | nil =>
    have same : (leaf payload).root leafHash nodeHash = tree.root leafHash nodeHash := opened
    have alone : leaf payload = tree := root_inj collisionFree pathKnown treeKnown same
    rw [← alone]
    rfl
  | append_singleton path step ih =>
    obtain ⟨sibling, isLeft⟩ := step
    rw [openInputs, climbInputs_append] at pathKnown
    have top := pathKnown _ (List.mem_cons_of_mem _ (List.mem_append_right _
      List.mem_cons_self))
    have rest : ∀ input ∈ openInputs leafHash nodeHash payload path, input ∈ known := by
      intro input member
      apply pathKnown
      rcases List.mem_cons.mp member with rfl | inner
      · exact List.mem_cons_self
      · exact List.mem_cons_of_mem _ (List.mem_append_left _ inner)
    have last : Frontier.opens nodeHash (leafHash payload) (path ++ [(sibling, isLeft)]) =
        hashInput leafHash nodeHash (.inr (if isLeft then
          (sibling, Frontier.opens nodeHash (leafHash payload) path)
          else (Frontier.opens nodeHash (leafHash payload) path, sibling))) := by
      rw [Frontier.opens, List.foldl_append]
      cases isLeft <;> rfl
    rw [last] at opened
    rw [List.map_append, List.reverse_append]
    cases tree with
    | leaf other =>
      have there := treeKnown (.inl other) List.mem_cons_self
      exact absurd (collisionFree top there opened) Sum.inr_ne_inl
    | node left right =>
      have there := treeKnown _ List.mem_cons_self
      have pair := Sum.inr.inj (collisionFree top there opened)
      have leftKnown : ∀ input ∈ left.inputs leafHash nodeHash, input ∈ known := by
        intro input member
        exact treeKnown input (List.mem_cons_of_mem _ (List.mem_append_left _ member))
      have rightKnown : ∀ input ∈ right.inputs leafHash nodeHash, input ∈ known := by
        intro input member
        exact treeKnown input (List.mem_cons_of_mem _ (List.mem_append_right _ member))
      cases isLeft with
      | true => exact ih rightKnown rest (Prod.mk.inj pair).2
      | false => exact ih leftKnown rest (Prod.mk.inj pair).1

/-! ## Leaves -/

/-- The payloads from left to right. -/
def leaves : Tree γ → List γ
  | leaf payload => [payload]
  | node left right => left.leaves ++ right.leaves

/-- A descent ends at a leaf of the tree. -/
theorem mem_leaves_of_descend {tree : Tree γ} {turns : List Bool} {payload : γ}
    (reached : tree.descend turns = some (leaf payload)) : payload ∈ tree.leaves := by
  induction tree generalizing turns with
  | leaf other =>
    cases turns with
    | nil =>
      obtain rfl := Tree.leaf.inj (Option.some.inj reached)
      exact List.mem_singleton_self _
    | cons turn turns => exact nomatch reached
  | node left right ihLeft ihRight =>
    cases turns with
    | nil => exact nomatch reached
    | cons turn turns =>
      cases turn with
      | true => exact List.mem_append_right _ (ihRight reached)
      | false => exact List.mem_append_left _ (ihLeft reached)

/-- All leaves lie at one depth. -/
def Perfect : Nat → Tree γ → Prop
  | 0, leaf _ => True
  | 0, node _ _ => False
  | _ + 1, leaf _ => False
  | depth + 1, node left right => left.Perfect depth ∧ right.Perfect depth

theorem Perfect.turns {tree : Tree γ} {depth : Nat} {turns : List Bool} {payload : γ}
    (perfect : tree.Perfect depth) (reached : tree.descend turns = some (leaf payload)) :
    turns.length = depth := by
  induction tree generalizing depth turns with
  | leaf other =>
    cases depth with
    | zero =>
      cases turns with
      | nil => rfl
      | cons turn turns => exact nomatch reached
    | succ depth => exact perfect.elim
  | node left right ihLeft ihRight =>
    cases depth with
    | zero => exact perfect.elim
    | succ depth =>
      cases turns with
      | nil => exact nomatch reached
      | cons turn turns =>
        cases turn with
        | true => exact congrArg (· + 1) (ihRight perfect.2 reached)
        | false => exact congrArg (· + 1) (ihLeft perfect.1 reached)

theorem Perfect.depth_unique {tree : Tree γ} {depth depth' : Nat} (perfect : tree.Perfect depth)
    (perfect' : tree.Perfect depth') : depth = depth' := by
  induction tree generalizing depth depth' with
  | leaf payload =>
    cases depth with
    | zero =>
      cases depth' with
      | zero => rfl
      | succ depth' => exact perfect'.elim
    | succ depth => exact perfect.elim
  | node left right ihLeft _ =>
    cases depth with
    | zero => exact perfect.elim
    | succ depth =>
      cases depth' with
      | zero => exact perfect'.elim
      | succ depth' => exact congrArg (· + 1) (ihLeft perfect.1 perfect'.1)

end Tree

/-! ## Level by level -/

section Levels

variable {β β' : Type}

/-- One level up: neighbours are joined, a lone last node becomes `lone` of it. -/
def levelUp (lone : β → β) (join : β → β → β) : List β → List β
  | [] => []
  | [last] => [lone last]
  | left :: right :: rest => join left right :: levelUp lone join rest

/-- Levels up until one node is left. As many rounds as nodes suffice. -/
def collapse (lone : β → β) (join : β → β → β) (none : β) : Nat → List β → β
  | _, [] => none
  | _, [top] => top
  | 0, first :: _ => first
  | rounds + 1, level => collapse lone join none rounds (levelUp lone join level)

variable {lone : β → β} {join : β → β → β} {none : β}

@[simp] theorem length_levelUp (level : List β) :
    (levelUp lone join level).length = (level.length + 1) / 2 := by
  fun_induction levelUp lone join level with
  | case1 => simp
  | case2 last => simp
  | case3 left right rest ih =>
    simp only [List.length_cons, ih]
    omega

/-- The entries of the next level. -/
theorem getElem?_levelUp (level : List β) (position : Nat) :
    (levelUp lone join level)[position]? =
      (level[2 * position]?).map fun left =>
        (level[2 * position + 1]?).elim (lone left) fun right => join left right := by
  fun_induction levelUp lone join level generalizing position with
  | case1 => rfl
  | case2 last =>
    cases position with
    | zero => rfl
    | succ position => rfl
  | case3 left right rest ih =>
    cases position with
    | zero => rfl
    | succ position =>
      have shift : 2 * (position + 1) = 2 * position + 1 + 1 := by ring
      rw [shift, List.getElem?_cons_succ, List.getElem?_cons_succ, List.getElem?_cons_succ,
        List.getElem?_cons_succ, List.getElem?_cons_succ, ih]

theorem map_levelUp {lone' : β' → β'} {join' : β' → β' → β'} (f : β → β')
    (lones : ∀ last, f (lone last) = lone' (f last))
    (joins : ∀ left right, f (join left right) = join' (f left) (f right)) (level : List β) :
    (levelUp lone join level).map f = levelUp lone' join' (level.map f) := by
  fun_induction levelUp lone join level with
  | case1 => rfl
  | case2 last => rw [List.map_singleton, List.map_singleton, lones, levelUp]
  | case3 left right rest ih => rw [List.map_cons, List.map_cons, List.map_cons, levelUp, joins, ih]

theorem collapse_cons_cons (rounds : Nat) (left right : β) (rest : List β) :
    collapse lone join none (rounds + 1) (left :: right :: rest) =
      collapse lone join none rounds (levelUp lone join (left :: right :: rest)) := rfl

/-- A map that fits both joins fits the root. -/
theorem collapse_map {lone' : β' → β'} {join' : β' → β' → β'} {none' : β'} (f : β → β')
    (lones : ∀ last, f (lone last) = lone' (f last))
    (joins : ∀ left right, f (join left right) = join' (f left) (f right)) {level : List β}
    (occupied : level ≠ []) (rounds : Nat) :
    f (collapse lone join none rounds level) =
      collapse lone' join' none' rounds (level.map f) := by
  induction rounds generalizing level with
  | zero =>
    match level with
    | [] => exact absurd rfl occupied
    | [top] => rfl
    | first :: _ :: _ => rfl
  | succ rounds ih =>
    match level with
    | [] => exact absurd rfl occupied
    | [top] => rfl
    | left :: right :: rest =>
      have grown : levelUp lone join (left :: right :: rest) ≠ [] := by simp [levelUp]
      have up := ih grown
      rw [map_levelUp f lones joins] at up
      exact up

theorem collapse_induction {P : β → Prop} (lones : ∀ last, P last → P (lone last))
    (joins : ∀ left right, P left → P right → P (join left right)) {level : List β}
    (occupied : level ≠ []) (all : ∀ node ∈ level, P node) (rounds : Nat) :
    P (collapse lone join none rounds level) := by
  have up : ∀ level : List β, (∀ node ∈ level, P node) →
      ∀ node ∈ levelUp lone join level, P node := by
    intro level
    fun_induction levelUp lone join level with
    | case1 => exact fun all => all
    | case2 last =>
      intro all node member
      rw [List.mem_singleton.mp member]
      exact lones last (all last (List.mem_singleton_self _))
    | case3 left right rest ih =>
      intro all node member
      rcases List.mem_cons.mp member with rfl | later
      · apply joins _ _ (all left List.mem_cons_self)
        exact all right (List.mem_cons_of_mem _ List.mem_cons_self)
      · apply ih _ node later
        intro node inRest
        exact all node (List.mem_cons_of_mem _ (List.mem_cons_of_mem _ inRest))
  induction rounds generalizing level with
  | zero =>
    match level with
    | [] => exact absurd rfl occupied
    | [top] => exact all top List.mem_cons_self
    | first :: _ :: _ => exact all first List.mem_cons_self
  | succ rounds ih =>
    match level with
    | [] => exact absurd rfl occupied
    | [top] => exact all top List.mem_cons_self
    | left :: right :: rest =>
      apply ih (by simp [levelUp])
      exact up _ all

end Levels

open Merkle.Tree (node)

/-- The lowest bits of a position, the lowest first. -/
def positionBits : (bits position : Nat) → List Bool
  | 0, _ => []
  | bits + 1, position => decide (position % 2 = 1) :: positionBits bits (position / 2)

@[simp] theorem length_positionBits (bits position : Nat) :
    (positionBits bits position).length = bits := by
  induction bits generalizing position with
  | zero => rfl
  | succ bits ih => rw [positionBits, List.length_cons, ih]

/-- Any turns are the bits of a position. -/
theorem exists_position (turns : List Bool) :
    ∃ position < 2 ^ turns.length, positionBits turns.length position = turns := by
  induction turns with
  | nil => exact ⟨0, Nat.one_pos, rfl⟩
  | cons turn turns ih =>
    obtain ⟨position, small, bits⟩ := ih
    rw [List.length_cons, Nat.pow_succ]
    cases turn with
    | true =>
      have half : (2 * position + 1) / 2 = position := by omega
      refine ⟨2 * position + 1, by omega, ?_⟩
      rw [positionBits, half, bits]
      simp
    | false =>
      have half : 2 * position / 2 = position := by omega
      refine ⟨2 * position, by omega, ?_⟩
      rw [positionBits, half, bits]
      simp

theorem clog_cons_cons {β : Type} (left right : β) (rest : List β) :
    Nat.clog 2 (left :: right :: rest).length =
      Nat.clog 2 (((left :: right :: rest).length + 1) / 2) + 1 := by
  rw [Nat.clog_of_two_le Nat.one_lt_two (by simp)]
  rfl

/-! ### Lone nodes paired with themselves -/

section Doubled

/-- The tree over a level when a lone node is paired with itself. -/
def doubled (none : Tree γ) : Nat → List (Tree γ) → Tree γ :=
  collapse (fun last => node last last) node none

variable {none : Tree γ}

/-- The turns to a leaf are the bits of its position. -/
theorem descend_doubled {level : List (Tree γ)} {below : Tree γ} {rounds position : Nat}
    (enough : level.length ≤ rounds + 1) (here : level[position]? = some below) :
    (doubled none rounds level).descend
      (positionBits (Nat.clog 2 level.length) position).reverse = some below := by
  induction rounds generalizing level below position with
  | zero =>
    match level with
    | [] => exact nomatch here
    | [top] =>
      cases position with
      | zero =>
        rw [List.length_singleton, Nat.clog_one_right]
        exact (Tree.descend_nil top).trans here
      | succ position => exact nomatch here
    | _ :: _ :: _ =>
      rw [List.length_cons, List.length_cons] at enough
      omega
  | succ rounds ih =>
    match level with
    | [] => exact nomatch here
    | [top] =>
      cases position with
      | zero =>
        rw [List.length_singleton, Nat.clog_one_right]
        exact (Tree.descend_nil top).trans here
      | succ position => exact nomatch here
    | left :: right :: rest =>
      set level := left :: right :: rest with shape
      set level' := levelUp (fun last => node last last) node level with up
      have length : level'.length = (level.length + 1) / 2 := length_levelUp level
      have enough' : level'.length ≤ rounds + 1 := by
        rw [length]
        omega
      have parent :=
        @getElem?_levelUp _ (fun last => node last last) node level (position / 2)
      have turns : positionBits (Nat.clog 2 level.length) position =
          decide (position % 2 = 1) :: positionBits (Nat.clog 2 level'.length)
            (position / 2) := by
        rw [length, clog_cons_cons left right rest]
        rfl
      have unfolded : doubled none (rounds + 1) level = doubled none rounds level' := rfl
      rw [turns, List.reverse_cons, Tree.descend_append, unfolded]
      rcases Nat.mod_two_eq_zero_or_one position with even | odd
      · have place : 2 * (position / 2) = position := by omega
        rw [place, here] at parent
        rw [ih enough' parent, even]
        cases level[position + 1]? <;> simp [Tree.descend]
      · have place : 2 * (position / 2) + 1 = position := by omega
        have before : 2 * (position / 2) < level.length := by
          have inside := (List.getElem?_eq_some_iff.mp here).1
          omega
        rw [place, here, List.getElem?_eq_getElem before] at parent
        rw [ih enough' parent, odd]
        simp [Tree.descend]

/-- Doubling the last node makes a perfect tree. -/
theorem perfect_doubled {level : List (Tree γ)} {rounds depth : Nat} (occupied : level ≠ [])
    (enough : level.length ≤ rounds + 1) (perfect : ∀ tree ∈ level, tree.Perfect depth) :
    (doubled none rounds level).Perfect (depth + Nat.clog 2 level.length) := by
  induction rounds generalizing level depth with
  | zero =>
    match level with
    | [] => exact absurd rfl occupied
    | [top] =>
      rw [List.length_singleton, Nat.clog_one_right]
      exact perfect top List.mem_cons_self
    | _ :: _ :: _ =>
      rw [List.length_cons, List.length_cons] at enough
      omega
  | succ rounds ih =>
    match level with
    | [] => exact absurd rfl occupied
    | [top] =>
      rw [List.length_singleton, Nat.clog_one_right]
      exact perfect top List.mem_cons_self
    | left :: right :: rest =>
      have length := @length_levelUp _ (fun last : Tree γ => node last last) node
        (left :: right :: rest)
      have up := @ih (levelUp (fun last => node last last) node (left :: right :: rest))
        (depth + 1) (by simp [levelUp]) (by omega) (levelUp_perfect perfect)
      rw [length, add_assoc, add_comm 1, ← clog_cons_cons left right rest] at up
      exact up
where
  levelUp_perfect {level : List (Tree γ)} {depth : Nat}
      (perfect : ∀ tree ∈ level, tree.Perfect depth) :
      ∀ tree ∈ levelUp (fun last => node last last) node level, tree.Perfect (depth + 1) := by
    fun_induction levelUp (fun last => node last last) node level with
    | case1 => exact fun _ member => nomatch member
    | case2 last =>
      intro tree member
      rw [List.mem_singleton.mp member]
      have below := perfect last (List.mem_singleton_self _)
      exact ⟨below, below⟩
    | case3 left right rest ih =>
      intro tree member
      rcases List.mem_cons.mp member with rfl | later
      · exact ⟨perfect left List.mem_cons_self,
          perfect right (List.mem_cons_of_mem _ List.mem_cons_self)⟩
      · apply ih _ tree later
        intro tree inRest
        exact perfect tree (List.mem_cons_of_mem _ (List.mem_cons_of_mem _ inRest))

theorem left_mem_of_mem_levelUp {level : List (Tree γ)} {left right : Tree γ}
    (member : node left right ∈ levelUp (fun last => node last last) node level) :
    left ∈ level := by
  fun_induction levelUp (fun last => node last last) node level with
  | case1 => exact nomatch member
  | case2 last =>
    rw [(Tree.node.inj (List.mem_singleton.mp member)).1]
    exact List.mem_singleton_self _
  | case3 first second rest ih =>
    rcases List.mem_cons.mp member with here | later
    · rw [(Tree.node.inj here).1]
      exact List.mem_cons_self
    · exact List.mem_cons_of_mem _ (List.mem_cons_of_mem _ (ih later))

theorem levelUp_nodup {level : List (Tree γ)} (nodup : level.Nodup) :
    (levelUp (fun last => node last last) node level).Nodup := by
  fun_induction levelUp (fun last => node last last) node level with
  | case1 => exact nodup
  | case2 last => simp
  | case3 left right rest ih =>
    have tails := List.nodup_cons.mp nodup
    refine List.nodup_cons.mpr ⟨?_, ih (List.nodup_cons.mp tails.2).2⟩
    intro member
    exact tails.1 (List.mem_cons_of_mem _ (left_mem_of_mem_levelUp member))

/-- Two levels without repetitions are equal when their next levels are. -/
theorem levelUp_inj {first second : List (Tree γ)} (nodup : first.Nodup)
    (nodup' : second.Nodup)
    (same : levelUp (fun last => node last last) node first =
      levelUp (fun last => node last last) node second) : first = second := by
  fun_induction levelUp (fun last => node last last) node first generalizing second with
  | case1 =>
    match second with
    | [] => rfl
    | [_] => exact nomatch same
    | _ :: _ :: _ => exact nomatch same
  | case2 last =>
    match second with
    | [] => exact nomatch same
    | [last'] =>
      have joined := (List.cons.inj same).1
      rw [(Tree.node.inj joined).1]
    | left :: right :: rest =>
      -- a repeated neighbour would pose as the lone node
      have joined := Tree.node.inj (List.cons.inj same).1
      have repeated : left = right := joined.1.symm.trans joined.2
      exact absurd (repeated ▸ List.mem_cons_self) (List.nodup_cons.mp nodup').1
  | case3 left right rest ih =>
    match second with
    | [] => exact nomatch same
    | [last] =>
      have joined := Tree.node.inj (List.cons.inj same).1
      have repeated : left = right := joined.1.trans joined.2.symm
      exact absurd (repeated ▸ List.mem_cons_self) (List.nodup_cons.mp nodup).1
    | left' :: right' :: rest' =>
      have joined := Tree.node.inj (List.cons.inj same).1
      have tails := ih (List.nodup_cons.mp (List.nodup_cons.mp nodup).2).2
        (List.nodup_cons.mp (List.nodup_cons.mp nodup').2).2 (List.cons.inj same).2
      rw [joined.1, joined.2, tails]

/-- **The level is determined.** Without repetitions, the tree over a level of perfect
trees determines the level. -/
theorem doubled_inj {first second : List (Tree γ)} {rounds rounds' depth : Nat}
    (occupied : first ≠ []) (occupied' : second ≠ []) (enough : first.length ≤ rounds + 1)
    (enough' : second.length ≤ rounds' + 1) (perfect : ∀ tree ∈ first, tree.Perfect depth)
    (perfect' : ∀ tree ∈ second, tree.Perfect depth) (nodup : first.Nodup)
    (nodup' : second.Nodup) (same : doubled none rounds first = doubled none rounds' second) :
    first = second := by
  have heights : Nat.clog 2 first.length = Nat.clog 2 second.length := by
    have here := @perfect_doubled _ none _ _ _ occupied enough perfect
    have there := @perfect_doubled _ none _ _ _ occupied' enough' perfect'
    rw [same] at here
    have total := here.depth_unique there
    omega
  induction rounds generalizing first second rounds' depth with
  | zero =>
    match first, second with
    | [], _ => exact absurd rfl occupied
    | [_], [] => exact absurd rfl occupied'
    | [top], [top'] =>
      have tops : top = top' := by
        cases rounds' <;> exact same
      rw [tops]
    | [_], left :: right :: rest =>
      rw [List.length_singleton, Nat.clog_one_right, clog_cons_cons] at heights
      omega
    | _ :: _ :: _, _ =>
      rw [List.length_cons, List.length_cons] at enough
      omega
  | succ rounds ih =>
    match first, second with
    | [], _ => exact absurd rfl occupied
    | [_], [] => exact absurd rfl occupied'
    | [top], [top'] =>
      have tops : top = top' := by
        cases rounds' <;> exact same
      rw [tops]
    | [_], left :: right :: rest =>
      rw [List.length_singleton, Nat.clog_one_right, clog_cons_cons] at heights
      omega
    | _ :: _ :: _, [] => exact absurd rfl occupied'
    | left :: right :: rest, [_] =>
      rw [List.length_singleton, Nat.clog_one_right, clog_cons_cons] at heights
      omega
    | left :: right :: rest, left' :: right' :: rest' =>
      cases rounds' with
      | zero =>
        rw [List.length_cons, List.length_cons] at enough'
        omega
      | succ rounds' =>
        have length := @length_levelUp _ (fun last : Tree γ => node last last) node
          (left :: right :: rest)
        have length' := @length_levelUp _ (fun last : Tree γ => node last last) node
          (left' :: right' :: rest')
        apply levelUp_inj nodup nodup'
        apply @ih (levelUp (fun last => node last last) node (left :: right :: rest))
          (levelUp (fun last => node last last) node (left' :: right' :: rest')) rounds'
          (depth + 1) (by simp [levelUp]) (by simp [levelUp]) (by omega) (by omega)
          (perfect_doubled.levelUp_perfect perfect)
          (perfect_doubled.levelUp_perfect perfect') (levelUp_nodup nodup)
          (levelUp_nodup nodup') same
        rw [clog_cons_cons, clog_cons_cons] at heights
        rw [length, length']
        exact Nat.succ.inj heights

end Doubled

/-! ### Lone nodes promoted -/

section Promoted

/-- The tree over a level when a lone node is promoted. -/
def promoted (none : Tree γ) : Nat → List (Tree γ) → Tree γ :=
  collapse (fun last => last) node none

/-- The turns up from a position, the lowest first; a lone node makes none. -/
def promotedTurns : (rounds length position : Nat) → List Bool
  | 0, _, _ => []
  | rounds + 1, length, position =>
    if length ≤ 1 then
      []
    else if position % 2 = 1 then
      true :: promotedTurns rounds ((length + 1) / 2) (position / 2)
    else if position + 1 < length then
      false :: promotedTurns rounds ((length + 1) / 2) (position / 2)
    else
      promotedTurns rounds ((length + 1) / 2) (position / 2)

variable {none : Tree γ}

/-- The turns to a leaf where lone nodes are promoted. -/
theorem descend_promoted {level : List (Tree γ)} {below : Tree γ} {rounds position : Nat}
    (enough : level.length ≤ rounds + 1) (here : level[position]? = some below) :
    (promoted none rounds level).descend
      (promotedTurns rounds level.length position).reverse = some below := by
  induction rounds generalizing level below position with
  | zero =>
    match level with
    | [] => exact nomatch here
    | [top] =>
      cases position with
      | zero => exact (Tree.descend_nil top).trans here
      | succ position => exact nomatch here
    | _ :: _ :: _ =>
      rw [List.length_cons, List.length_cons] at enough
      omega
  | succ rounds ih =>
    match level with
    | [] => exact nomatch here
    | [top] =>
      cases position with
      | zero => exact (Tree.descend_nil top).trans here
      | succ position => exact nomatch here
    | left :: right :: rest =>
      have several : ¬(left :: right :: rest).length ≤ 1 := by
        rw [List.length_cons, List.length_cons]
        omega
      have unfolded : promoted none (rounds + 1) (left :: right :: rest) =
        promoted none rounds (levelUp (fun last => last) node (left :: right :: rest)) := rfl
      rw [unfolded, promotedTurns, if_neg several]
      generalize left :: right :: rest = level at enough here several ⊢
      have length : (levelUp (fun last => last) node level).length = (level.length + 1) / 2 :=
        length_levelUp level
      have enough' : (levelUp (fun last => last) node level).length ≤ rounds + 1 := by
        rw [length]
        omega
      have parent := @getElem?_levelUp _ (fun last => last) node level (position / 2)
      rw [← length]
      have inside := (List.getElem?_eq_some_iff.mp here).1
      by_cases odd : position % 2 = 1
      · have place : 2 * (position / 2) + 1 = position := by omega
        have before : 2 * (position / 2) < level.length := by omega
        rw [place, here, List.getElem?_eq_getElem before] at parent
        rw [if_pos odd, List.reverse_cons, Tree.descend_append, ih enough' parent]
        simp [Tree.descend]
      · have place : 2 * (position / 2) = position := by omega
        rw [place, here, Option.map_some] at parent
        rw [if_neg odd]
        by_cases paired : position + 1 < level.length
        · rw [List.getElem?_eq_getElem paired] at parent
          rw [if_pos paired, List.reverse_cons, Tree.descend_append, ih enough' parent]
          simp [Tree.descend]
        · rw [List.getElem?_eq_none (Nat.le_of_not_lt paired)] at parent
          rw [if_neg paired]
          exact ih enough' parent

end Promoted

theorem length_promotedTurns {rounds length height : Nat} (position : Nat)
    (bounded : length ≤ 2 ^ height) : (promotedTurns rounds length position).length ≤ height := by
  induction rounds generalizing length position height with
  | zero => exact Nat.zero_le _
  | succ rounds ih =>
    cases height with
    | zero =>
      have single : length ≤ 1 := bounded
      rw [promotedTurns, if_pos single]
      exact Nat.le_refl _
    | succ height =>
      have half : (length + 1) / 2 ≤ 2 ^ height := by
        rw [Nat.pow_succ] at bounded
        omega
      have above := ih (position / 2) half
      unfold promotedTurns
      split
      · exact Nat.zero_le _
      · split
        · exact Nat.succ_le_succ above
        · split
          · exact Nat.succ_le_succ above
          · exact Nat.le_succ_of_le above

theorem mem_leaves_collapse {lone : Tree γ → Tree γ} {none : Tree γ}
    (lones : ∀ last, (lone last).leaves ⊆ last.leaves) {level : List (Tree γ)}
    (occupied : level ≠ []) (rounds : Nat) {payload : γ}
    (member : payload ∈ (collapse lone node none rounds level).leaves) :
    ∃ tree ∈ level, payload ∈ tree.leaves := by
  have all : ∀ payload ∈ (collapse lone node none rounds level).leaves,
      ∃ tree ∈ level, payload ∈ tree.leaves := by
    refine collapse_induction
      (P := fun top => ∀ payload ∈ top.leaves, ∃ tree ∈ level, payload ∈ tree.leaves)
      ?_ ?_ occupied ?_ rounds
    · intro last known payload below
      exact known payload (lones last below)
    · intro left right knownLeft knownRight payload below
      rcases List.mem_append.mp below with inLeft | inRight
      · exact knownLeft payload inLeft
      · exact knownRight payload inRight
    · intro tree inLevel payload below
      exact ⟨tree, inLevel, below⟩
  exact all payload member

end Merkle
