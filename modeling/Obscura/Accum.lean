import Obscura.Block
import Obscura.Lib.Frontier

/-! # Accumulators

The three append-only commitments of the chain state: the group-of-unknown-order
accumulator over all outputs, the Merkle accumulators over nullifiers and
post-quantum outputs, and the epoch-sharded commitment tree of the ZK notes. Each
comes with the prediction its header root is checked against, and the lemma that
the prediction is what appending computes.
-/

namespace Obscura

open Wire

/-! ## The output accumulator -/

/-- The accumulator value, marshalled, with its size counter. The member set is
empty in the value-only mode every node runs in; only a decoded snapshot can carry
one. -/
structure Accumulator where
  value : Bytes
  valueOnly : Bool := true
  count : Nat := 0
  members : List Nat := []
deriving DecidableEq

namespace Accumulator

/-- An accumulator that keeps its value and a count, but no members. -/
def newValueOnly (V : Primitives) : Accumulator where
  value := V.groupGenerator

/-- The number of members; a value-only accumulator counts them. -/
def size (a : Accumulator) : Nat :=
  if a.valueOnly then a.count else a.members.length

/-- Only a node that keeps the members can tell. -/
def contains (a : Accumulator) (prime : Nat) : Bool :=
  !a.valueOnly && a.members.contains prime

/-- Fold `n` primes, given as their product, in one exponentiation. -/
def addBatch (V : Primitives) (a : Accumulator) (product n : Nat) : Accumulator :=
  if n = 0 then a else { a with value := V.groupExp a.value product, count := a.count + n }

end Accumulator

/-! ## The Merkle accumulators -/

namespace PQAccum

variable (V : Primitives)

/-- Leaves and inner nodes are hashed under different prefixes. -/
def leafHash (data : Bytes) : Hash := V.blake2b (0 :: data)

/-- An inner node over its two children. -/
def nodeHash (left right : Hash) : Hash := V.blake2b (1 :: (left ++ right))

/-- The root of a perfect subtree and its number of leaves. -/
structure Peak where
  hash : Hash
  size : Nat
deriving DecidableEq

/-- An accumulator retains its leaves, or in streaming mode only the peaks, kept
here with the newest first. -/
structure Accumulator where
  leaves : List Hash := []
  streaming : Bool := false
  peaks : List Peak := []
  count : Nat := 0
deriving DecidableEq

/-- The accumulator that keeps every leaf. -/
def Accumulator.new : Accumulator := {}

/-- The accumulator that keeps the peaks alone. -/
def Accumulator.newStreaming : Accumulator := { streaming := true }

/-- Add a peak, merging peaks of equal size. -/
def pushPeak (peak : Peak) : List Peak → List Peak
  | [] => [peak]
  | newest :: older =>
    if newest.size = peak.size then
      pushPeak ⟨nodeHash V newest.hash peak.hash, peak.size * 2⟩ older
    else
      peak :: newest :: older

/-- The peaks bagged from the newest to the oldest. -/
def rootFromPeaks : List Peak → Hash
  | [] => zeroHash
  | newest :: older => older.foldl (fun acc peak => nodeHash V peak.hash acc) newest.hash

/-- One level up; a lone last node is promoted as it is. -/
def promotePairs : List Hash → List Hash
  | [] => []
  | [lone] => [lone]
  | left :: right :: rest => nodeHash V left right :: promotePairs rest

/-- The root over retained leaves. As many rounds as leaves suffice. -/
def rootOfLeaves : Nat → List Hash → Hash
  | _, [] => zeroHash
  | _, [root] => root
  | 0, first :: _ => first
  | rounds + 1, level => rootOfLeaves rounds (promotePairs V level)

namespace Accumulator

/-- Add a member, as a leaf or into the peaks. -/
def add (a : Accumulator) (data : Bytes) : Accumulator :=
  if a.streaming then
    { a with peaks := pushPeak V ⟨leafHash V data, 1⟩ a.peaks, count := a.count + 1 }
  else
    { a with leaves := a.leaves ++ [leafHash V data] }

/-- The number of leaves added. -/
def len (a : Accumulator) : Nat :=
  if a.streaming then a.count else a.leaves.length

/-- The root in either mode. -/
def root (a : Accumulator) : Hash :=
  if a.streaming then rootFromPeaks V a.peaks else rootOfLeaves V a.leaves.length a.leaves

/-- The root after adding `extra`, without adding it. -/
def rootAfter (a : Accumulator) (extra : List Bytes) : Hash :=
  if extra.isEmpty then
    a.root V
  else if a.streaming then
    rootFromPeaks V
      (extra.foldl (fun peaks data => pushPeak V ⟨leafHash V data, 1⟩ peaks) a.peaks)
  else
    let leaves := a.leaves ++ extra.map (leafHash V)
    rootOfLeaves V leaves.length leaves

theorem foldl_add_streaming (a : Accumulator) (streaming : a.streaming = true)
    (extra : List Bytes) :
    extra.foldl (add V) a =
      { a with
        peaks := extra.foldl (fun peaks data => pushPeak V ⟨leafHash V data, 1⟩ peaks) a.peaks
        count := a.count + extra.length } := by
  induction extra generalizing a with
  | nil => rfl
  | cons data extra ih =>
    have kept : (a.add V data).streaming = true := by simp [add, streaming]
    rw [List.foldl_cons, ih _ kept]
    simp only [add, streaming, ↓reduceIte, List.foldl_cons, List.length_cons]
    congr 1
    omega

theorem foldl_add_leaves (a : Accumulator) (retains : a.streaming = false)
    (extra : List Bytes) :
    extra.foldl (add V) a = { a with leaves := a.leaves ++ extra.map (leafHash V) } := by
  induction extra generalizing a with
  | nil => simp
  | cons data extra ih =>
    have kept : (a.add V data).streaming = false := by simp [add, retains]
    rw [List.foldl_cons, ih _ kept]
    simp [add, retains]

theorem root_foldl_add (a : Accumulator) (extra : List Bytes) :
    (extra.foldl (add V) a).root V = a.rootAfter V extra := by
  cases extra with
  | nil => simp [rootAfter]
  | cons data extra =>
    cases mode : a.streaming with
    | true =>
      rw [foldl_add_streaming V a mode]
      simp [rootAfter, root, mode]
    | false =>
      rw [foldl_add_leaves V a mode]
      simp [rootAfter, root, mode]

end Accumulator

/-! ### Membership proofs -/

/-- A sibling on the way up, and whether it lies on the right. -/
structure PathStep where
  hash : Bytes
  isRight : Bool
deriving DecidableEq

/-- A membership proof: the place of a leaf among `size` leaves and its siblings. -/
structure Proof where
  index : Nat
  size : Nat
  path : List PathStep
deriving DecidableEq

/-- The largest count that a proof may name. -/
def maxProofSize : Nat := 2 ^ 40

/-- The length of a number in binary. -/
def bitLen (number : Nat) : Nat :=
  if number = 0 then 0 else number.log2 + 1

/-- The number of one bits. -/
def onesCount (number : Nat) : Nat :=
  ((List.range 64).filter fun bit => number.testBit bit).length

/-- Check a membership proof for `data` against a root. -/
def verify (root data : Bytes) (proof : Proof) : Bool :=
  if root.length ≠ 32 ∨ proof.size = 0 ∨ proof.size ≤ proof.index ∨ maxProofSize < proof.size then
    false
  else
    let inner := bitLen (proof.index ^^^ (proof.size - 1))
    let border := onesCount (proof.index >>> inner)
    if proof.path.length ≠ inner + border ∨ proof.path.any (fun step => step.hash.length ≠ 32) then
      false
    else
      let climbed := (proof.path.take inner).zipIdx.foldl (fun node (step, level) =>
        if proof.index.testBit level then nodeHash V step.hash node
        else nodeHash V node step.hash) (leafHash V data)
      (proof.path.drop inner).foldl (fun node step => nodeHash V step.hash node) climbed == root

/-- The path steps of a serialized proof, 33 bytes each. -/
def parseSteps : Nat → Bytes → List PathStep
  | 0, _ => []
  | n + 1, bytes =>
    ⟨(bytes.drop 1).take 32, bytes.head? == some 1⟩ :: parseSteps n (bytes.drop 33)

/-- `ParseProof`; none for what it refuses. -/
def parseProof (bytes : Bytes) : Option Proof :=
  if bytes.length < 24 then
    none
  else
    let index := ofBigEndian (bytes.take 8)
    let size := ofBigEndian ((bytes.drop 8).take 8)
    let n := ofBigEndian ((bytes.drop 16).take 8)
    if size = 0 ∨ maxProofSize < size ∨ size ≤ index ∨ 64 < n ∨ bytes.length ≠ 24 + n * 33 then
      none
    else
      some ⟨index, size, parseSteps n (bytes.drop 24)⟩

end PQAccum

/-! ## The commitment tree -/

section CommitmentTree

variable (V : Primitives)

/-- The root of an empty subtree of the given depth. -/
def zeroRoot : Nat → Node := Frontier.blank V.wideHash2 zeroHash

/-- The node-side state of one incremental tree: its frontier and root. -/
structure IMT256 where
  depth : Nat
  count : Nat := 0
  filled : List Node
  root : Node
deriving DecidableEq

namespace IMT256

/-- An empty tree of a depth. -/
def new (depth : Nat) : IMT256 where
  depth := depth
  filled := (List.range depth).map (zeroRoot V)
  root := zeroRoot V depth

/-- Append a leaf; only the frontier changes. -/
def append (tree : IMT256) (leaf : Node) : IMT256 :=
  let (filled, root) := Frontier.climb V.wideHash2 zeroHash tree.filled tree.count leaf
  { tree with count := tree.count + 1, filled := filled, root := root }

@[simp] theorem append_depth (tree : IMT256) (leaf : Node) :
    (tree.append V leaf).depth = tree.depth := rfl

@[simp] theorem append_count (tree : IMT256) (leaf : Node) :
    (tree.append V leaf).count = tree.count + 1 := rfl

end IMT256

/-- A sequence of trees of one depth, each but the last full. -/
structure EpochIMT where
  depth : Nat
  finalized : List IMT256 := []
  current : IMT256
deriving DecidableEq

namespace EpochIMT

/-- The first epoch, empty. -/
def new (depth : Nat) : EpochIMT where
  depth := depth
  current := IMT256.new V depth

/-- The leaves that fit one epoch. -/
def cap (e : EpochIMT) : Nat := 2 ^ e.depth

/-- Append a leaf, rolling to a fresh tree when the current one is full. -/
def append (e : EpochIMT) (leaf : Node) : EpochIMT :=
  if e.current.count = e.cap then
    { e with
      finalized := e.finalized ++ [e.current]
      current := (IMT256.new V e.depth).append V leaf }
  else
    { e with current := e.current.append V leaf }

/-- The leaves of all epochs. -/
def totalCount (e : EpochIMT) : Nat :=
  (e.finalized.map IMT256.count).sum + e.current.count

/-- The root of the epoch that is being filled. -/
def currentRoot (e : EpochIMT) : Node := e.current.root

/-- The tree a leaf goes into: a fresh one when the current epoch is full. -/
def openTree (e : EpochIMT) (tree : IMT256) : IMT256 :=
  if tree.count = e.cap then IMT256.new V e.depth else tree

/-- The current root after appending, computed on a copy of the frontier that is
reset when the epoch fills. -/
def rootAfter (e : EpochIMT) (leaves : List Node) : Node :=
  (leaves.foldl (fun tree leaf => (e.openTree V tree).append V leaf) e.current).root

@[simp] theorem append_depth (e : EpochIMT) (leaf : Node) :
    (e.append V leaf).depth = e.depth := by
  unfold append
  split <;> rfl

@[simp] theorem append_current (e : EpochIMT) (leaf : Node) :
    (e.append V leaf).current = (e.openTree V e.current).append V leaf := by
  unfold append openTree
  split <;> rfl

theorem openTree_append (e : EpochIMT) (leaf : Node) :
    (e.append V leaf).openTree V = e.openTree V := by
  funext tree
  unfold openTree cap
  rw [append_depth]

theorem foldl_append_current (e : EpochIMT) (leaves : List Node) :
    (leaves.foldl (append V) e).current =
      leaves.foldl (fun tree leaf => (e.openTree V tree).append V leaf) e.current := by
  induction leaves generalizing e with
  | nil => rfl
  | cons leaf leaves ih =>
    rw [List.foldl_cons, List.foldl_cons, ih, openTree_append, append_current]

theorem currentRoot_foldl_append (e : EpochIMT) (leaves : List Node) :
    (leaves.foldl (append V) e).currentRoot = e.rootAfter V leaves := by
  rw [currentRoot, foldl_append_current, rootAfter]

end EpochIMT

/-- Decode a node strictly: 32 bytes, every limb below the field modulus. -/
def parseNode (bytes : Bytes) : Option Node :=
  if bytes.length = 32 ∧ ∀ limb ∈ List.range 4,
      ofBigEndian ((bytes.drop (limb * 8)).take 8) < Config.goldilocks then
    some bytes
  else
    none

theorem parseNode_eq {bytes : Bytes} {node : Node} (parsed : parseNode bytes = some node) :
    node = bytes := by
  unfold parseNode at parsed
  split at parsed
  · exact (Option.some.inj parsed).symm
  · exact absurd parsed (by simp)

end CommitmentTree

end Obscura
