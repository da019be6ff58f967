import Mathlib.Data.Set.Function
import Mathlib.Tactic.Ring

/-! # Incremental Merkle trees

A perfect binary tree whose leaves are filled from the left, blank positions
holding a fixed value, and the frontier that computes its root leaf by leaf: one
node for each level, the last left sibling completed there. The frontier computes
the root of the perfect tree (`Frontier.climb_spec`), and unless two of the pairs
that were hashed collide whatever opens to that root is one of its leaves
(`Frontier.mem_of_opens`).
-/

namespace Frontier

variable {α : Type} (hash : α → α → α)

/-- The root of a blank subtree. -/
def blank (zero : α) : Nat → α
  | 0 => zero
  | depth + 1 => hash (blank zero depth) (blank zero depth)

/-- Hash a node up the frontier, from a level where a blank node is `zero` and the
node has the given position. Returns the new frontier and the root. -/
def climb : (zero : α) → (filled : List α) → (position : Nat) → (node : α) → List α × α
  | _, [], _, node => ([], node)
  | zero, sibling :: rest, position, node =>
    if position % 2 = 0 then
      let (above, root) := climb (hash zero zero) rest (position / 2) (hash node zero)
      (node :: above, root)
    else
      let (above, root) := climb (hash zero zero) rest (position / 2) (hash sibling node)
      (sibling :: above, root)

/-! ## The perfect tree -/

/-- One level up. -/
def above (level : Nat → α) : Nat → α :=
  fun position => hash (level (2 * position)) (level (2 * position + 1))

/-- The root over the first `2 ^ depth` nodes of a level. -/
def perfectRoot : (depth : Nat) → (level : Nat → α) → α
  | 0, level => level 0
  | depth + 1, level => perfectRoot depth (above hash level)

/-- The leaves of a tree, blank from the first free position on. -/
def padded (zero : α) (leaves : List α) : Nat → α :=
  fun position => leaves[position]?.getD zero

/-- A frontier that holds the left siblings of `position`, level by level. -/
def Fits : (level : Nat → α) → (filled : List α) → (position : Nat) → Prop
  | _, [], _ => True
  | level, sibling :: rest, position =>
    (position % 2 = 1 → sibling = level (position - 1)) ∧
      Fits (above hash level) rest (position / 2)

variable {hash}

theorem Fits.congr {first second : Nat → α} {filled : List α} {position : Nat}
    (fits : Fits hash first filled position)
    (agree : ∀ left < position, first left = second left) : Fits hash second filled position := by
  induction filled generalizing first second position with
  | nil => exact trivial
  | cons sibling rest ih =>
    refine ⟨?_, ih fits.2 ?_⟩
    · intro odd
      rw [fits.1 odd]
      exact agree _ (by omega)
    · intro left below
      unfold above
      rw [agree _ (by omega), agree _ (by omega)]

/-- **The climb.** With the node in place, everything right of it blank and the
frontier of its position, climbing yields the root of the perfect tree and a
frontier that fits this position and the next one. -/
theorem climb_spec {level : Nat → α} {zero node : α} {filled : List α} {position : Nat}
    (placed : level position = node) (blankAfter : ∀ right, position < right → level right = zero)
    (fits : Fits hash level filled position) (room : position < 2 ^ filled.length) :
    (climb hash zero filled position node).2 = perfectRoot hash filled.length level ∧
      (climb hash zero filled position node).1.length = filled.length ∧
      Fits hash level (climb hash zero filled position node).1 position ∧
      Fits hash level (climb hash zero filled position node).1 (position + 1) := by
  induction filled generalizing level zero node position with
  | nil =>
    have first : position = 0 := by simpa using room
    subst first
    exact ⟨placed.symm, rfl, trivial, trivial⟩
  | cons sibling rest ih =>
    have half : position / 2 < 2 ^ rest.length := by
      rw [List.length_cons, Nat.pow_succ] at room
      omega
    have blankAbove :
        ∀ right, position / 2 < right → above hash level right = hash zero zero := by
      intro right after
      unfold above
      rw [blankAfter _ (by omega), blankAfter _ (by omega)]
    by_cases even : position % 2 = 0
    · have next : (position + 1) / 2 = position / 2 := by omega
      have parent : above hash level (position / 2) = hash node zero := by
        have left : 2 * (position / 2) = position := by omega
        unfold above
        rw [left, placed, blankAfter (position + 1) (by omega)]
      obtain ⟨root, length, fitsHere, _⟩ := ih parent blankAbove fits.2 half
      simp only [climb, even, ↓reduceIte]
      refine ⟨root, by simp [length], ⟨by omega, fitsHere⟩, ⟨?_, ?_⟩⟩
      · intro _
        rw [Nat.add_sub_cancel, placed]
      · rw [next]
        exact fitsHere
    · have next : (position + 1) / 2 = position / 2 + 1 := by omega
      have leftSibling := fits.1 (by omega)
      have parent : above hash level (position / 2) = hash sibling node := by
        have left : 2 * (position / 2) = position - 1 := by omega
        have right : position - 1 + 1 = position := by omega
        unfold above
        rw [left, right, placed, leftSibling]
      obtain ⟨root, length, fitsHere, fitsNext⟩ := ih parent blankAbove fits.2 half
      simp only [climb, even, ↓reduceIte]
      refine ⟨root, by simp [length], ⟨fun _ => leftSibling, fitsHere⟩, ⟨by omega, ?_⟩⟩
      rw [next]
      exact fitsNext

theorem Fits.start (level : Nat → α) (filled : List α) : Fits hash level filled 0 := by
  induction filled generalizing level with
  | nil => exact trivial
  | cons sibling rest ih => exact ⟨by omega, ih _⟩

/-- The root of a tree of blanks. -/
theorem perfectRoot_blank (zero : α) (depth : Nat) :
    perfectRoot hash depth (fun _ => zero) = blank hash zero depth := by
  have general : ∀ depth height : Nat,
      perfectRoot hash depth (fun _ => blank hash zero height) =
        blank hash zero (height + depth) := by
    intro depth
    induction depth with
    | zero => intro height; rfl
    | succ depth ih =>
      intro height
      have up : above hash (fun _ => blank hash zero height) =
          fun _ => blank hash zero (height + 1) := rfl
      rw [perfectRoot, up, ih (height + 1)]
      congr 1
      omega
  have whole := general depth 0
  rwa [Nat.zero_add] at whole

/-- A climb among values that a hash keeps to stays among them. -/
theorem climb_all {fits : α → Prop}
    (closed : ∀ left right, fits left → fits right → fits (hash left right)) {zero node : α}
    {filled : List α} {position : Nat} (zeroFits : fits zero) (nodeFits : fits node)
    (filledFits : ∀ sibling ∈ filled, fits sibling) :
    (climb hash zero filled position node).1.length = filled.length ∧
      (∀ sibling ∈ (climb hash zero filled position node).1, fits sibling) ∧
      fits (climb hash zero filled position node).2 := by
  induction filled generalizing zero node position with
  | nil =>
    refine ⟨rfl, ?_, nodeFits⟩
    intro sibling member
    exact absurd member List.not_mem_nil
  | cons sibling rest ih =>
    have siblingFits := filledFits sibling List.mem_cons_self
    have restFits : ∀ sibling ∈ rest, fits sibling := fun _ member =>
      filledFits _ (List.mem_cons_of_mem _ member)
    have zeroFits' := closed zero zero zeroFits zeroFits
    rw [climb]
    split
    case isTrue =>
      obtain ⟨length, levels, root⟩ :=
        @ih _ _ (position / 2) zeroFits' (closed node zero nodeFits zeroFits) restFits
      exact ⟨by rw [List.length_cons, List.length_cons, length],
        fun _ member => (List.mem_cons.mp member).elim (fun same => same ▸ nodeFits) (levels _),
        root⟩
    case isFalse =>
      obtain ⟨length, levels, root⟩ :=
        @ih _ _ (position / 2) zeroFits' (closed sibling node siblingFits nodeFits) restFits
      exact ⟨by rw [List.length_cons, List.length_cons, length],
        fun _ member =>
          (List.mem_cons.mp member).elim (fun same => same ▸ siblingFits) (levels _),
        root⟩

/-! ## Openings -/

variable (hash) in
/-- The root a path of siblings leads to; `true` when the sibling is on the left. -/
def opens (leaf : α) (path : List (α × Bool)) : α :=
  path.foldl (fun node step => if step.2 then hash step.1 node else hash node step.1) leaf

variable (hash) in
theorem exists_opens (depth : Nat) (level : Nat → α) {position : Nat}
    (inside : position < 2 ^ depth) :
    ∃ path : List (α × Bool), path.length = depth ∧
      opens hash (level position) path = perfectRoot hash depth level := by
  induction depth generalizing level position with
  | zero =>
    obtain rfl : position = 0 := Nat.lt_one_iff.mp inside
    exact ⟨[], rfl, rfl⟩
  | succ depth ih =>
    obtain ⟨path, length, opened⟩ := @ih (above hash level) (position / 2)
      (by rw [Nat.pow_succ] at inside; omega)
    have place := Nat.div_add_mod position 2
    rcases Nat.mod_two_eq_zero_or_one position with even | odd
    · rw [even, Nat.add_zero] at place
      refine ⟨(level (position + 1), false) :: path, by rw [List.length_cons, length], ?_⟩
      have parent : above hash level (position / 2) =
          hash (level position) (level (position + 1)) := by
        rw [above, place]
      rw [parent] at opened
      exact opened
    · have left : 2 * (position / 2) = position - 1 := by omega
      have right : position - 1 + 1 = position := by omega
      refine ⟨(level (position - 1), true) :: path, by rw [List.length_cons, length], ?_⟩
      have parent : above hash level (position / 2) =
          hash (level (position - 1)) (level position) := by
        rw [above, left, right]
      rw [parent] at opened
      exact opened

/-! ## Paths by index -/

variable (hash) in
/-- The root a node leads to from an index, the lowest bit of the index telling its side. -/
def climbFrom : α → Nat → List α → α
  | node, _, [] => node
  | node, index, sibling :: siblings =>
    if index % 2 = 0 then climbFrom (hash node sibling) (index / 2) siblings
    else climbFrom (hash sibling node) (index / 2) siblings

variable (hash) in
/-- The nodes some levels up. -/
def levelAt (level : Nat → α) (height : Nat) : Nat → α := (above hash)^[height] level

theorem levelAt_succ (level : Nat → α) (height position : Nat) :
    levelAt hash level (height + 1) position =
      hash (levelAt hash level height (2 * position))
        (levelAt hash level height (2 * position + 1)) := by
  rw [levelAt, Function.iterate_succ_apply']
  rfl

theorem levelAt_above (level : Nat → α) (height : Nat) :
    levelAt hash (above hash level) height = levelAt hash level (height + 1) := rfl

/-- Above the last leaf everything is blank. -/
theorem levelAt_blank {zero : α} {leaves : List α} {height position : Nat}
    (free : leaves.length ≤ position * 2 ^ height) :
    levelAt hash (padded zero leaves) height position = blank hash zero height := by
  induction height generalizing position with
  | zero =>
    rw [Nat.pow_zero, Nat.mul_one] at free
    change (leaves[position]?).getD zero = zero
    rw [List.getElem?_eq_none free]
    rfl
  | succ height ih =>
    rw [Nat.pow_succ] at free
    have left : leaves.length ≤ 2 * position * 2 ^ height := by
      calc leaves.length ≤ position * (2 ^ height * 2) := free
        _ = 2 * position * 2 ^ height := by ring
    have right : leaves.length ≤ (2 * position + 1) * 2 ^ height :=
      left.trans (Nat.mul_le_mul_right _ (Nat.le_succ _))
    rw [levelAt_succ, ih left, ih right, blank]

/-- The neighbour of an index. -/
theorem flip_lowest (index : Nat) :
    index ^^^ 1 = if index % 2 = 0 then index + 1 else index - 1 := by
  have half : (index ^^^ 1) / 2 = index / 2 := by
    rw [Nat.xor_div_two]
    exact Nat.xor_zero _
  rcases Nat.mod_two_eq_zero_or_one index with even | odd
  · have flipped : (index ^^^ 1) % 2 = 1 := by
      rw [Nat.xor_mod_two_eq_one]
      omega
    rw [if_pos even]
    omega
  · have flipped : ¬(index ^^^ 1) % 2 = 1 := by
      rw [Nat.xor_mod_two_eq_one]
      omega
    rw [if_neg (by omega)]
    omega

variable (hash) in
theorem climbFrom_levels (depth : Nat) (level : Nat → α) {index : Nat}
    (inside : index < 2 ^ depth) :
    climbFrom hash (level index) index
      ((List.range depth).map fun k => levelAt hash level k ((index >>> k) ^^^ 1)) =
        perfectRoot hash depth level := by
  induction depth generalizing level index with
  | zero =>
    obtain rfl : index = 0 := Nat.lt_one_iff.mp inside
    rfl
  | succ depth ih =>
    have next := @ih (above hash level) (index / 2) (by rw [Nat.pow_succ] at inside; omega)
    have above_siblings : (List.range depth).map
        (fun k => levelAt hash level (k + 1) ((index >>> (k + 1)) ^^^ 1)) =
        (List.range depth).map fun k =>
          levelAt hash (above hash level) k (((index / 2) >>> k) ^^^ 1) := by
      apply List.map_congr_left
      intro k _
      rw [levelAt_above, Nat.shiftRight_succ_inside]
    have siblings : ((List.range (depth + 1)).map fun k =>
        levelAt hash level k ((index >>> k) ^^^ 1)) =
        level (index ^^^ 1) :: (List.range depth).map fun k =>
          levelAt hash (above hash level) k (((index / 2) >>> k) ^^^ 1) := by
      rw [List.range_succ_eq_map, List.map_cons, List.map_map, ← above_siblings]
      rfl
    have parent : above hash level (index / 2) =
        hash (level (2 * (index / 2))) (level (2 * (index / 2) + 1)) := rfl
    rw [siblings, climbFrom, perfectRoot, ← next, flip_lowest, parent]
    rcases Nat.mod_two_eq_zero_or_one index with even | odd
    · have place : 2 * (index / 2) = index := by omega
      rw [if_pos even, if_pos even, place]
    · have right : 2 * (index / 2) + 1 = index := by omega
      have left : 2 * (index / 2) = index - 1 := by omega
      rw [if_neg (by omega), if_neg (by omega), right, left]

/-! ## Binding -/

variable (hash) in
/-- The pairs that are hashed for the root of a perfect tree. -/
def treePairs : (depth : Nat) → (level : Nat → α) → Set (α × α)
  | 0, _ => ∅
  | depth + 1, level =>
    {pair | ∃ parent < 2 ^ depth, pair = (level (2 * parent), level (2 * parent + 1))} ∪
      treePairs depth (above hash level)

variable (hash) in
/-- The pairs that are hashed when a path is opened. -/
def pathPairs : (leaf : α) → (path : List (α × Bool)) → List (α × α)
  | _, [] => []
  | leaf, (sibling, isLeft) :: path =>
    if isLeft then (sibling, leaf) :: pathPairs (hash sibling leaf) path
    else (leaf, sibling) :: pathPairs (hash leaf sibling) path

/-- **Binding.** When no two of the pairs that were hashed collide, what opens to the root of a
perfect tree is one of its leaves. -/
theorem exists_of_opens {hashed : Set (α × α)}
    (apart : Set.InjOn (fun pair => hash pair.1 pair.2) hashed) {path : List (α × Bool)} {leaf : α}
    {level : Nat → α} (tree : treePairs hash path.length level ⊆ hashed)
    (steps : ∀ pair ∈ pathPairs hash leaf path, pair ∈ hashed)
    (opened : opens hash leaf path = perfectRoot hash path.length level) :
    ∃ position < 2 ^ path.length, level position = leaf := by
  induction path generalizing leaf level with
  | nil => exact ⟨0, Nat.one_pos, opened.symm⟩
  | cons step path ih =>
    obtain ⟨sibling, isLeft⟩ := step
    have inner : treePairs hash path.length (above hash level) ⊆ hashed :=
      Set.subset_union_right.trans tree
    have known : ∀ parent < 2 ^ path.length,
        (level (2 * parent), level (2 * parent + 1)) ∈ hashed :=
      fun parent inside => tree (Or.inl ⟨parent, inside, rfl⟩)
    have room : 2 ^ (path.length + 1) = 2 ^ path.length * 2 := Nat.pow_succ _ _
    cases isLeft with
    | true =>
      obtain ⟨here, later⟩ := List.forall_mem_cons.mp steps
      obtain ⟨parent, inside, same⟩ := ih inner later opened
      have pairs := apart (known parent inside) here same
      exact ⟨2 * parent + 1, by rw [List.length_cons]; omega, congrArg Prod.snd pairs⟩
    | false =>
      obtain ⟨here, later⟩ := List.forall_mem_cons.mp steps
      obtain ⟨parent, inside, same⟩ := ih inner later opened
      have pairs := apart (known parent inside) here same
      exact ⟨2 * parent, by rw [List.length_cons]; omega, congrArg Prod.fst pairs⟩

theorem mem_of_opens {hashed : Set (α × α)}
    (apart : Set.InjOn (fun pair => hash pair.1 pair.2) hashed) {path : List (α × Bool)}
    {leaf zero : α} {leaves : List α}
    (tree : treePairs hash path.length (padded zero leaves) ⊆ hashed)
    (steps : ∀ pair ∈ pathPairs hash leaf path, pair ∈ hashed)
    (opened : opens hash leaf path = perfectRoot hash path.length (padded zero leaves))
    (occupied : leaf ≠ zero) : leaf ∈ leaves := by
  obtain ⟨position, -, found⟩ := exists_of_opens apart tree steps opened
  unfold padded at found
  cases entry : leaves[position]? with
  | none =>
    rw [entry] at found
    exact absurd found.symm occupied
  | some value =>
    rw [entry] at found
    exact found ▸ List.mem_of_getElem? entry

end Frontier
