import Mathlib.Algebra.Ring.Basic
import Mathlib.Data.List.FinRange
import Mathlib.Data.Nat.Bitwise

/-! # The wide permutation and the commitment-tree compression

The width-8 permutation runs 30 rounds over two nodes of four elements each; the Jive mode adds
the halves of its input and of its output to one node. The tables of round constants and the
mixing matrix are a parameter: nothing here depends on their entries.
-/

namespace Obscura.Stark

/-- The rounds in which every word goes through the box. -/
def poseidonWideRF : Nat := 8

/-- The rounds in which one word does. -/
def poseidonWideRP : Nat := 22

/-- The rounds of a permutation. -/
def poseidonWideRounds : Nat := poseidonWideRF + poseidonWideRP

/-- `poseidonWideRC` and `poseidonWideMDS`. -/
structure WideTables (F : Type) where
  rc : Nat → Fin 8 → F
  mds : Fin 8 → Fin 8 → F

/-- The eight words of a state. -/
abbrev WideState (F : Type) := Fin 8 → F

instance instNeZeroEight : NeZero 8 := ⟨by decide⟩

/-- The four words of a node. -/
abbrev Node256 (F : Type) := Fin 4 → F

section Halves

variable {F : Type}

theorem low_lt (i : Fin 4) : (i : Nat) < 8 := by omega

theorem high_lt (i : Fin 4) : 4 + (i : Nat) < 8 := by omega

/-- Elements 0 to 3 of a state. -/
def low (x : WideState F) : Node256 F := fun i => x ⟨i, low_lt i⟩

/-- Elements 4 to 7 of a state. -/
def high (x : WideState F) : Node256 F := fun i => x ⟨4 + i, high_lt i⟩

/-- Two nodes side by side. -/
def join (left right : Node256 F) : WideState F := fun i =>
  if inLeft : i.val < 4 then left ⟨i, inLeft⟩ else right ⟨i - 4, by omega⟩

@[simp] theorem low_join (left right : Node256 F) : low (join left right) = left := by
  funext i
  simp [low, join]

@[simp] theorem high_join (left right : Node256 F) : high (join left right) = right := by
  funext i
  simp [high, join]

theorem join_low_high (x : WideState F) : join (low x) (high x) = x := by
  funext i
  by_cases inLeft : i.val < 4
  · simp [join, low, inLeft]
  · have back : 4 + (i.val - 4) = i.val := by omega
    simp [join, high, inLeft, back]

theorem state_ext {x y : WideState F} (lows : low x = low y) (highs : high x = high y) :
    x = y := by
  rw [← join_low_high x, ← join_low_high y, lows, highs]

end Halves

section Permutation

variable {F : Type} [CommRing F]

/-- `sbox`: the seventh power. -/
def sbox (x : F) : F :=
  let x2 := x * x
  let x4 := x2 * x2
  x4 * x2 * x

/-- `wideFullRound`: the first and the last rounds are full. -/
def wideFullRound (r : Nat) : Bool :=
  let half := poseidonWideRF / 2
  r < half || half + poseidonWideRP ≤ r

variable (tables : WideTables F)

/-- The mixing layer. -/
def wideMix (s : WideState F) : WideState F := fun i =>
  (List.finRange 8).foldl (fun acc j => acc + tables.mds i j * s j) 0

/-- A round: constants, box, mix. -/
def wideRoundStep (s : WideState F) (r : Nat) : WideState F :=
  let t : WideState F := fun i => s i + tables.rc r i
  wideMix tables fun i => if wideFullRound r ∨ i = 0 then sbox (t i) else t i

/-- `poseidonWidePermute`: all rounds in their order. -/
def poseidonWidePermute (state : WideState F) : WideState F :=
  (List.range poseidonWideRounds).foldl (wideRoundStep tables) state

/-- `jiveCompress`: input and output summed down to a node. -/
def jiveCompress (left right : Node256 F) : Node256 F :=
  let x := join left right
  let y := poseidonWidePermute tables x
  fun i => low x i + high x i + low y i + high y i

/-- `WideHash2`: two nodes compressed. -/
def wideHash2 (left right : Node256 F) : Node256 F := jiveCompress tables left right

/-- `Node256FromFelts` of one element. -/
def nodeOf (x : F) : Node256 F := fun i => if i = 0 then x else 0

/-! ## Merkle paths -/

/-- A path: the leaf's index and the siblings from the leaf up. -/
structure MerklePath256 (F : Type) where
  index : Nat
  siblings : List (Node256 F)

/-- The node a path leads to from `h` at index `idx`. -/
def climbPath : Node256 F → Nat → List (Node256 F) → Node256 F
  | h, _, [] => h
  | h, idx, sib :: siblings =>
    climbPath (if idx % 2 = 0 then wideHash2 tables h sib else wideHash2 tables sib h) (idx / 2)
      siblings

/-- `VerifyPath256`. -/
def verifyPath256 (root leaf : Node256 F) (path : MerklePath256 F) : Prop :=
  climbPath tables leaf path.index path.siblings = root

/-- The parent of `node` and its sibling, which lies on the left when `side` holds. -/
def parentOf (node sib : Node256 F) (side : Bool) : Node256 F :=
  if side then wideHash2 tables sib node else wideHash2 tables node sib

/-- The last step of a climb. -/
theorem climbPath_concat (h : Node256 F) (idx : Nat) (siblings : List (Node256 F))
    (sib : Node256 F) :
    climbPath tables h idx (siblings ++ [sib]) =
      parentOf tables (climbPath tables h idx siblings) sib (idx.testBit siblings.length) := by
  induction siblings generalizing h idx with
  | nil =>
    rw [List.nil_append, climbPath, climbPath, climbPath, parentOf, List.length_nil,
      Nat.testBit_zero]
    by_cases even : idx % 2 = 0
    · simp [even]
    · have odd : idx % 2 = 1 := by omega
      simp [odd]
  | cons first siblings ih =>
    rw [List.cons_append, climbPath, ih, climbPath, List.length_cons, Nat.testBit_succ]

theorem climbPath_chain (nodes sibs : Nat → Node256 F) (index count : Nat)
    (steps : ∀ k < count, nodes (k + 1) = parentOf tables (nodes k) (sibs k) (index.testBit k)) :
    climbPath tables (nodes 0) index ((List.range count).map sibs) = nodes count := by
  induction count with
  | zero => rfl
  | succ count ih =>
    rw [List.range_succ, List.map_append, List.map_singleton, climbPath_concat,
      ih fun k before => steps k (by omega), List.length_map, List.length_range,
      steps count (by omega)]

end Permutation

end Obscura.Stark
