import Mathlib.Data.List.Basic
import Mathlib.Tactic.Ring

/-! # Peaks of a growing hash tree

The hash tree over a list in which a lone last node of a level is promoted as it is, and the
stack of peaks that computes its root leaf by leaf: one root for each maximal perfect block of
leaves, the newest block first. A push keeps the stack right (`Summits.push`), and folding the
stack gives the root of the tree (`Summits.fold`).
-/

namespace Peaks

variable {α : Type} (node : α → α → α)

/-- One level up; a lone last node is promoted. -/
def promote : List α → List α
  | [] => []
  | [lone] => [lone]
  | left :: right :: rest => node left right :: promote rest

/-- The root of a level, in at most the given number of rounds. -/
def climb : (rounds : Nat) → List α → Option α
  | _, [] => none
  | _, [root] => some root
  | 0, _ => none
  | rounds + 1, level => climb rounds (promote node level)

/-- The root of the tree over a list. -/
def root (leaves : List α) : Option α := climb node leaves.length leaves

/-- A peak: the root of a block and the length of the block. -/
structure Peak (α : Type) where
  hash : α
  size : Nat

/-- Push a peak, merging peaks of equal size. -/
def push (peak : Peak α) : List (Peak α) → List (Peak α)
  | [] => [peak]
  | newest :: older =>
    if newest.size = peak.size then push ⟨node newest.hash peak.hash, peak.size * 2⟩ older
    else peak :: newest :: older

/-- Fold the peaks into one root. -/
def fold : List (Peak α) → Option α
  | [] => none
  | newest :: older => some (older.foldl (fun acc peak => node peak.hash acc) newest.hash)

variable {node}

/-! ## The tree -/

theorem length_promote (level : List α) : (promote node level).length = (level.length + 1) / 2 := by
  match level with
  | [] => rw [promote, List.length_nil]
  | [_] => rw [promote, List.length_singleton]
  | _ :: _ :: rest =>
    rw [promote, List.length_cons, length_promote rest, List.length_cons, List.length_cons]
    omega

theorem promote_append {first second : List α} (even : first.length % 2 = 0) :
    promote node (first ++ second) = promote node first ++ promote node second := by
  match first with
  | [] => rfl
  | [_] => exact absurd even (by simp)
  | left :: right :: rest =>
    have less : rest.length % 2 = 0 := by
      rw [List.length_cons, List.length_cons] at even
      omega
    rw [List.cons_append, List.cons_append, promote, promote, promote_append less,
      List.cons_append]

theorem climb_succ (rounds : Nat) (left right : α) (rest : List α) :
    climb node (rounds + 1) (left :: right :: rest) =
      climb node rounds (promote node (left :: right :: rest)) := rfl

/-- More rounds than leaves change nothing. -/
theorem climb_enough {rounds : Nat} {level : List α} (enough : level.length ≤ rounds + 1) :
    climb node rounds level = root node level := by
  unfold root
  have settled : ∀ (n : Nat) (level : List α) (first second : Nat), level.length ≤ n →
      level.length ≤ first + 1 → level.length ≤ second + 1 →
        climb node first level = climb node second level := by
    intro n
    induction n with
    | zero =>
      intro level first second bound _ _
      obtain rfl := List.length_eq_zero_iff.mp (Nat.le_zero.mp bound)
      rw [climb, climb]
    | succ n ih =>
      intro level first second bound enoughFirst enoughSecond
      match level with
      | [] => rw [climb, climb]
      | [_] => rw [climb, climb]
      | left :: right :: rest =>
        rw [List.length_cons, List.length_cons] at bound enoughFirst enoughSecond
        have less : (promote node (left :: right :: rest)).length = _ := length_promote _
        rw [List.length_cons, List.length_cons] at less
        match first, second with
        | first + 1, second + 1 =>
          rw [climb_succ, climb_succ]
          exact ih _ first second (by omega) (by omega) (by omega)
        | 0, _ => exact absurd enoughFirst (by omega)
        | _ + 1, 0 => exact absurd enoughSecond (by omega)
  exact settled level.length level rounds level.length le_rfl enough (by omega)

theorem root_promote {level : List α} (many : 2 ≤ level.length) :
    root node level = root node (promote node level) := by
  match level with
  | [] => exact absurd many (by simp)
  | [_] => exact absurd many (by simp)
  | left :: right :: rest =>
    have less : (promote node (left :: right :: rest)).length = _ := length_promote _
    rw [List.length_cons, List.length_cons] at less
    rw [root, List.length_cons, List.length_cons, climb_succ]
    exact climb_enough (by omega)

/-- **A perfect block on the left.** The root over a perfect block and at most as many leaves
to its right is the node over both roots. -/
theorem root_append {k : Nat} {block rest : List α} (perfect : block.length = 2 ^ k)
    (some_rest : 0 < rest.length) (fits : rest.length ≤ 2 ^ k) :
    ∃ left right, root node block = some left ∧ root node rest = some right ∧
      root node (block ++ rest) = some (node left right) := by
  induction k generalizing block rest with
  | zero =>
    obtain ⟨left, rfl⟩ := List.length_eq_one_iff.mp perfect
    obtain ⟨right, rfl⟩ := List.length_eq_one_iff.mp (show rest.length = 1 by omega)
    exact ⟨left, right, rfl, rfl, rfl⟩
  | succ k ih =>
    have double : 2 ^ (k + 1) = 2 * 2 ^ k := by ring
    have positive := Nat.two_pow_pos k
    obtain ⟨left, right, leftRoot, rightRoot, both⟩ :=
      @ih (promote node block) (promote node rest) (by rw [length_promote]; omega)
        (by rw [length_promote]; omega) (by rw [length_promote]; omega)
    refine ⟨left, right, ?_, ?_, ?_⟩
    · rw [root_promote (by omega), leftRoot]
    · by_cases lone : rest.length = 1
      · obtain ⟨last, rfl⟩ := List.length_eq_one_iff.mp lone
        exact rightRoot
      · rw [root_promote (by omega), rightRoot]
    · rw [root_promote (by rw [List.length_append]; omega), promote_append (by omega), both]

theorem promote_forall {holds : α → Prop} {level : List α} (onLevel : ∀ leaf ∈ level, holds leaf)
    (onNodes : ∀ left right, holds (node left right)) : ∀ above ∈ promote node level, holds above := by
  match level with
  | [] => exact onLevel
  | [_] => exact onLevel
  | left :: right :: rest =>
    intro above member
    rw [promote] at member
    rcases List.mem_cons.mp member with rfl | member
    · exact onNodes left right
    · exact promote_forall (fun leaf inRest => onLevel leaf
        (List.mem_cons_of_mem _ (List.mem_cons_of_mem _ inRest))) onNodes above member

theorem root_forall {holds : α → Prop} {leaves : List α} {top : α}
    (onLeaves : ∀ leaf ∈ leaves, holds leaf) (onNodes : ∀ left right, holds (node left right))
    (hash : root node leaves = some top) : holds top := by
  unfold root at hash
  generalize leaves.length = rounds at hash
  induction rounds generalizing leaves with
  | zero =>
    match leaves with
    | [] => exact nomatch hash
    | [leaf] => exact Option.some.inj hash ▸ onLeaves leaf List.mem_cons_self
    | _ :: _ :: _ => exact nomatch hash
  | succ rounds ih =>
    match leaves with
    | [] => exact nomatch hash
    | [leaf] => exact Option.some.inj hash ▸ onLeaves leaf List.mem_cons_self
    | left :: right :: rest =>
      rw [climb_succ] at hash
      exact ih (promote_forall onLeaves onNodes) hash

/-! ## The stack -/

variable (node) in
/-- The stack of a list of leaves: the newest peak is the root of the last block, the others
are the stack of what is before it, and sizes grow towards the oldest. -/
inductive Summits : List (Peak α) → List α → Prop where
  | nil : Summits [] []
  | cons {peak : Peak α} {older : List (Peak α)} {front block : List α} (k : Nat) :
      Summits older front → block.length = peak.size → peak.size = 2 ^ k →
      root node block = some peak.hash → (∀ p ∈ older.head?, peak.size < p.size) →
      Summits (peak :: older) (front ++ block)

namespace Summits

/-- **A push.** A perfect block, no larger than the newest one, enters the stack. -/
theorem push {peak : Peak α} {peaks : List (Peak α)} {leaves block : List α} {k : Nat}
    (summits : Summits node peaks leaves) (length : block.length = peak.size)
    (perfect : peak.size = 2 ^ k) (hash : root node block = some peak.hash)
    (small : ∀ p ∈ peaks.head?, peak.size ≤ p.size) :
    Summits node (Peaks.push node peak peaks) (leaves ++ block) := by
  induction summits generalizing peak block k with
  | nil => exact Summits.cons k Summits.nil length perfect hash (fun _ member => nomatch member)
  | @cons newest older front last j below lastLength lastPerfect lastHash grows ih =>
    have order := small newest rfl
    rw [Peaks.push]
    by_cases same : newest.size = peak.size
    · rw [if_pos same, List.append_assoc]
      have double : 2 ^ (k + 1) = 2 * 2 ^ k := by ring
      have positive := Nat.two_pow_pos k
      obtain ⟨left, right, leftRoot, rightRoot, both⟩ :=
        @root_append _ node k last block (by omega) (by omega) (by omega)
      obtain rfl : left = newest.hash := by
        rw [lastHash] at leftRoot
        exact (Option.some.inj leftRoot).symm
      obtain rfl : right = peak.hash := by
        rw [hash] at rightRoot
        exact (Option.some.inj rightRoot).symm
      apply @ih ⟨node newest.hash peak.hash, peak.size * 2⟩ (last ++ block) (k + 1)
      · rw [List.length_append, lastLength, length, same]
        exact (Nat.mul_two _).symm
      · change peak.size * 2 = 2 ^ (k + 1)
        rw [perfect, double, Nat.mul_comm]
      · exact both
      · intro p member
        have larger := grows p member
        cases below with
        | nil => exact nomatch member
        | cons i _ _ olderPerfect =>
          obtain rfl := Option.some.inj member
          rw [same, perfect, olderPerfect] at larger
          have exponent := (Nat.pow_lt_pow_iff_right (by omega)).mp larger
          have grown := Nat.pow_le_pow_right (show 0 < 2 by omega) (Nat.succ_le_of_lt exponent)
          change peak.size * 2 ≤ _
          rw [olderPerfect]
          omega
    · rw [if_neg same]
      refine Summits.cons k (Summits.cons j below lastLength lastPerfect lastHash grows) length
        perfect hash ?_
      intro p member
      obtain rfl := Option.some.inj member
      omega

/-- No peak is empty. -/
theorem positive {peaks : List (Peak α)} {leaves : List α} (summits : Summits node peaks leaves) :
    ∀ p ∈ peaks, 0 < p.size := by
  induction summits with
  | nil => exact fun p member => absurd member List.not_mem_nil
  | cons k _ _ perfect _ _ ih =>
    intro p member
    rcases List.mem_cons.mp member with rfl | member
    · rw [perfect]
      exact Nat.two_pow_pos k
    · exact ih p member

theorem bounds {peaks : List (Peak α)} {leaves : List α} (summits : Summits node peaks leaves) :
    peaks.length ≤ leaves.length ∧ ∀ p ∈ peaks, p.size ≤ leaves.length := by
  induction summits with
  | nil => exact ⟨le_rfl, fun p member => absurd member List.not_mem_nil⟩
  | cons k _ length perfect _ _ ih =>
    have filled := Nat.two_pow_pos k
    rw [List.length_append, List.length_cons]
    refine ⟨by omega, fun p member => ?_⟩
    rcases List.mem_cons.mp member with rfl | member
    · omega
    · exact (ih.2 p member).trans (Nat.le_add_right _ _)

theorem forall_hash {holds : α → Prop} {peaks : List (Peak α)} {leaves : List α}
    (summits : Summits node peaks leaves) (onLeaves : ∀ leaf ∈ leaves, holds leaf)
    (onNodes : ∀ left right, holds (node left right)) : ∀ p ∈ peaks, holds p.hash := by
  induction summits with
  | nil => exact fun p member => absurd member List.not_mem_nil
  | cons k _ _ _ hash _ ih =>
    intro p member
    rcases List.mem_cons.mp member with rfl | member
    · exact root_forall (fun leaf inBlock => onLeaves leaf (List.mem_append_right _ inBlock))
        onNodes hash
    · exact ih (fun leaf inFront => onLeaves leaf (List.mem_append_left _ inFront)) p member

/-- The older peaks, folded onto the root of what follows them. -/
theorem foldl {older : List (Peak α)} {front rest : List α} {top : α}
    (summits : Summits node older front) (some_rest : 0 < rest.length)
    (fits : ∀ p ∈ older.head?, rest.length ≤ p.size) (hash : root node rest = some top) :
    root node (front ++ rest) =
      some (older.foldl (fun acc peak => node peak.hash acc) top) := by
  induction summits generalizing rest top with
  | nil => exact hash
  | @cons newest older front last j below lastLength lastPerfect lastHash grows ih =>
    have room := fits newest rfl
    obtain ⟨left, right, leftRoot, rightRoot, both⟩ :=
      @root_append _ node j last rest (by omega) some_rest (by omega)
    obtain rfl : left = newest.hash := by
      rw [lastHash] at leftRoot
      exact (Option.some.inj leftRoot).symm
    obtain rfl : right = top := by
      rw [hash] at rightRoot
      exact (Option.some.inj rightRoot).symm
    rw [List.append_assoc, List.foldl_cons]
    refine ih (by rw [List.length_append]; omega) ?_ both
    intro p member
    have larger := grows p member
    cases below with
    | nil => exact nomatch member
    | cons i _ _ olderPerfect =>
      obtain rfl := Option.some.inj member
      rw [lastPerfect, olderPerfect] at larger
      have exponent := (Nat.pow_lt_pow_iff_right (by omega)).mp larger
      have grown := Nat.pow_le_pow_right (show 0 < 2 by omega) (Nat.succ_le_of_lt exponent)
      rw [List.length_append, olderPerfect]
      omega

theorem fold {peaks : List (Peak α)} {leaves : List α} (summits : Summits node peaks leaves) :
    Peaks.fold node peaks = root node leaves := by
  cases summits with
  | nil => rfl
  | @cons newest older front last j below lastLength lastPerfect lastHash grows =>
    have positive := Nat.two_pow_pos j
    rw [below.foldl (by omega) (fun p member => by have := grows p member; omega) lastHash]
    rfl

end Summits

end Peaks
