import Mathlib.Data.FinEnum
import Obscura.CommitmentTree

/-! # Ideal cryptography

What the verifiers of `Primitives` establish when no proof is forged. A commitment
has one value, a coin one key image, and an accepted STARK proof has a witness: the
note it opens, written out as the circuits of package `stark` do. Among pairs of nodes
whose hashes do not collide a leaf has one amount and one nullifier.
-/

namespace Obscura

open Wire Tx

/-! ## Notes -/

section Notes

variable (V : Primitives)

/-- A field element in the first limb of a node. -/
def feltNode (felt : UInt64) : Node := wU64 felt ++ List.replicate 24 0

theorem feltNode_injective {first second : UInt64} (same : feltNode first = feltNode second) :
    first = second := by
  have heads := (List.append_inj same (by simp [wU64, putU64])).1
  exact UInt64.toNat_inj.mp (bigEndian_inj 8 first.toNat_lt second.toNat_lt heads)

/-- The address of a nullifier key. -/
def nfAddress (nk : UInt64) : Node := V.wideHash2 (feltNode nk) zeroHash

/-- The leaf of a note paid to an address. -/
def nfNoteFromPk (pk : Node) (amount rho blind : UInt64) : Node :=
  V.wideHash2 (V.wideHash2 (V.wideHash2 pk (feltNode amount)) (feltNode rho)) (feltNode blind)

/-- The nullifier of a key and the sender's `rho`. -/
def nfNullifier (nk rho : UInt64) : Node := V.wideHash2 (feltNode nk) (feltNode rho)

/-- A leaf lies in a tree with the given root: a path of siblings opens it. -/
def LeafUnder (anchor leaf : Node) : Prop :=
  ∃ path : List (Node × Bool), path.length = Config.zkDepth ∧
    Frontier.opens V.wideHash2 leaf path = anchor

/-- What is in a note. -/
structure Opening where
  pk : Node
  amount : UInt64
  rho : UInt64
  blind : UInt64
deriving Inhabited

/-- The leaf that a note is committed to with. -/
def Opening.leaf (note : Opening) : Node :=
  nfNoteFromPk V note.pk note.amount note.rho note.blind

/-- The pairs that are hashed for the leaf of a note. -/
def Opening.pairs (note : Opening) : List (Node × Node) :=
  let first := V.wideHash2 note.pk (feltNode note.amount)
  [(note.pk, feltNode note.amount), (first, feltNode note.rho),
    (V.wideHash2 first (feltNode note.rho), feltNode note.blind)]

/-- What a spend is proved with: the key of the note's owner, the note and its path in the
tree. -/
structure Spending where
  nk : UInt64
  amount : UInt64
  rho : UInt64
  blind : UInt64
  path : List (Node × Bool)
deriving Inhabited

/-- The note that is spent, under the spender's address. -/
def Spending.note (s : Spending) : Opening := ⟨nfAddress V s.nk, s.amount, s.rho, s.blind⟩

/-- The leaf of the note. -/
def Spending.leaf (s : Spending) : Node := (s.note V).leaf V

/-- The nullifier of the note. -/
def Spending.nullifier (s : Spending) : Node := nfNullifier V s.nk s.rho

/-- The pairs that are hashed for a spend: for the address, the nullifier, the leaf and the
root. -/
def Spending.pairs (s : Spending) : List (Node × Node) :=
  (feltNode s.nk, zeroHash) :: (feltNode s.nk, feltNode s.rho) :: (s.note V).pairs V ++
    Frontier.pathPairs V.wideHash2 (s.leaf V) s.path

/-- The statement of the spend circuits about the spent note: it lies under the anchor and has
the nullifier. -/
structure Spending.Proves (s : Spending) (anchor nf : Node) : Prop where
  depth : s.path.length = Config.zkDepth
  opened : Frontier.opens V.wideHash2 (s.leaf V) s.path = anchor
  nullifier : s.nullifier V = nf

open Classical in
/-- The amount a leaf commits to by a note that was hashed, zero for a leaf of no such note. -/
noncomputable def noteValue (hashed : Set (Node × Node)) (leaf : Node) : Nat :=
  if known : ∃ note : Opening, (∀ pair ∈ note.pairs V, pair ∈ hashed) ∧ note.leaf V = leaf then
    known.choose.amount.toNat
  else
    0

open Classical in
/-- The nullifier of a leaf by a spend that was hashed. -/
noncomputable def noteNullifier (hashed : Set (Node × Node)) (leaf : Node) : Node :=
  if known : ∃ s : Spending, (∀ pair ∈ s.pairs V, pair ∈ hashed) ∧ s.leaf V = leaf then
    known.choose.nullifier V
  else
    zeroHash

/-- No two of the pairs have one hash, and no pair has the hash of a blank leaf. -/
structure Collisionless (hashed : Set (Node × Node)) : Prop where
  apart : Set.InjOn (fun pair => V.wideHash2 pair.1 pair.2) hashed
  nonzero : ∀ pair ∈ hashed, V.wideHash2 pair.1 pair.2 ≠ zeroHash

variable {V}

theorem Collisionless.of_injective (injective : Function.Injective2 V.wideHash2)
    (nonzero : ∀ left right, V.wideHash2 left right ≠ zeroHash) (hashed : Set (Node × Node)) :
    Collisionless V hashed :=
  ⟨fun _ _ _ _ same => Prod.ext (injective same).1 (injective same).2, fun _ _ => nonzero _ _⟩

theorem Opening.leaf_injOn {hashed : Set (Node × Node)}
    (apart : Set.InjOn (fun pair => V.wideHash2 pair.1 pair.2) hashed) {first second : Opening}
    (firstHashed : ∀ pair ∈ first.pairs V, pair ∈ hashed)
    (secondHashed : ∀ pair ∈ second.pairs V, pair ∈ hashed)
    (same : first.leaf V = second.leaf V) :
    first.pk = second.pk ∧ first.amount = second.amount ∧ first.rho = second.rho := by
  simp only [Opening.pairs, List.forall_mem_cons] at firstHashed secondHashed
  obtain ⟨inner, middle, outer, -⟩ := firstHashed
  obtain ⟨inner', middle', outer', -⟩ := secondHashed
  have outerEq := apart outer outer' same
  have middleEq := apart middle middle' (congrArg Prod.fst outerEq)
  have innerEq := apart inner inner' (congrArg Prod.fst middleEq)
  exact ⟨congrArg Prod.fst innerEq, feltNode_injective (congrArg Prod.snd innerEq),
    feltNode_injective (congrArg Prod.snd middleEq)⟩

theorem Spending.note_hashed {hashed : Set (Node × Node)} {s : Spending}
    (known : ∀ pair ∈ s.pairs V, pair ∈ hashed) :
    ∀ pair ∈ (s.note V).pairs V, pair ∈ hashed := fun pair member =>
  known pair (List.mem_append_left _ (List.mem_cons_of_mem _ (List.mem_cons_of_mem _ member)))

section Hashed

variable {hashed : Set (Node × Node)} (free : Collisionless V hashed)

include free

theorem Collisionless.noteValue_eq {note : Opening}
    (known : ∀ pair ∈ note.pairs V, pair ∈ hashed) :
    noteValue V hashed (note.leaf V) = note.amount.toNat := by
  have found : ∃ other : Opening, (∀ pair ∈ other.pairs V, pair ∈ hashed) ∧
      other.leaf V = note.leaf V := ⟨note, known, rfl⟩
  obtain ⟨otherKnown, same⟩ := found.choose_spec
  rw [noteValue, dif_pos found, (Opening.leaf_injOn free.apart otherKnown known same).2.1]

theorem Collisionless.noteNullifier_eq {s : Spending}
    (known : ∀ pair ∈ s.pairs V, pair ∈ hashed) :
    noteNullifier V hashed (s.leaf V) = s.nullifier V := by
  have found : ∃ other : Spending, (∀ pair ∈ other.pairs V, pair ∈ hashed) ∧
      other.leaf V = s.leaf V := ⟨s, known, rfl⟩
  obtain ⟨otherKnown, same⟩ := found.choose_spec
  obtain ⟨address, -, rho⟩ := Opening.leaf_injOn free.apart (Spending.note_hashed otherKnown)
    (Spending.note_hashed known) same
  have keys := free.apart (otherKnown _ List.mem_cons_self) (known _ List.mem_cons_self) address
  have nk := feltNode_injective (congrArg Prod.fst keys)
  change found.choose.rho = s.rho at rho
  rw [noteNullifier, dif_pos found, Spending.nullifier, Spending.nullifier, nk, rho]

theorem Collisionless.leaf_nonzero {note : Opening}
    (known : ∀ pair ∈ note.pairs V, pair ∈ hashed) : note.leaf V ≠ zeroHash := by
  simp only [Opening.pairs, List.forall_mem_cons] at known
  exact free.nonzero _ known.2.2.1

theorem Collisionless.mem_of_proves {s : Spending} {leaves : List Node} {nf : Node}
    (known : ∀ pair ∈ s.pairs V, pair ∈ hashed)
    (tree : Frontier.treePairs V.wideHash2 Config.zkDepth (Frontier.padded zeroHash leaves) ⊆
      hashed)
    (proves : s.Proves V (rootOver V Config.zkDepth leaves) nf) : s.leaf V ∈ leaves := by
  obtain ⟨depth, opened, -⟩ := proves
  rw [rootOver, ← depth] at opened
  rw [← depth] at tree
  exact Frontier.mem_of_opens free.apart tree
    (fun pair member => known pair (List.mem_append_right _ member)) opened
    (free.leaf_nonzero (Spending.note_hashed known))

end Hashed

end Notes

/-! ## The assumptions -/

/-- Ideal cryptography: the value of a commitment, the key image of a coin, the
witnesses hidden in accepted proofs, and what the verifiers guarantee of them. -/
structure Ideal (V : Primitives) where
  value : Bytes → Int
  nullifierOf : Bytes → Bytes
  ringIndex : (ringKeys ringCommits : List Bytes) → (pseudo tag proof ctx : Bytes) → Nat
  mintNote : (amount : UInt64) → (leaf : Node) → (bind proof : Bytes) → Opening
  spending : (amount : UInt64) → (anchor nf : Node) → (bind proof : Bytes) → Spending
  hiddenSpending : (nf anchor leafOut : Node) → (fee : UInt64) → (bind proof : Bytes) → Spending
  sentNote : (nf anchor leafOut : Node) → (fee : UInt64) → (bind proof : Bytes) → Opening
  range : ∀ {commitment proof}, V.verifyRangeBytes commitment proof = true →
    0 ≤ value commitment ∧ value commitment < 2 ^ 64
  equality : ∀ {pseudo commitment proof ctx},
    V.verifyValueEquality pseudo commitment proof ctx = true → value pseudo = value commitment
  conservation : ∀ {ins outs publicIn publicOut proof ctx},
    V.verifyConservationGen ins outs publicIn publicOut proof ctx = true →
      (ins.map value).sum + publicIn.toNat = (outs.map value).sum + publicOut.toNat
  coinbase : ∀ {minted outs proof ctx},
    V.verifyCoinbaseConservation minted outs proof ctx = true →
      (outs.map value).sum = minted.toNat
  keyImage : ∀ {ref image proof ctx}, V.verifyKeyImage ref image proof ctx = true →
    V.canonicalNullifier image = some (nullifierOf ref)
  anonSpend : ∀ {keys commits pseudo tag proof ctx},
    V.verifyAnonSpendBytes keys commits pseudo tag proof ctx = true →
      ∃ key commitment, keys[ringIndex keys commits pseudo tag proof ctx]? = some key ∧
        commits[ringIndex keys commits pseudo tag proof ctx]? = some commitment ∧
        value pseudo = value commitment ∧ V.canonicalNullifier tag = some (nullifierOf key)
  mint : ∀ {amount leaf bind proof}, V.verifyNfMint amount leaf bind proof = true →
    (mintNote amount leaf bind proof).leaf V = leaf ∧
      (mintNote amount leaf bind proof).amount = amount
  spend : ∀ {amount anchor nf bind proof},
    V.verifyNfSpend amount anchor nf bind proof = true →
      (spending amount anchor nf bind proof).Proves V anchor nf ∧
        (spending amount anchor nf bind proof).amount = amount
  confidential : ∀ {nf anchor leafOut fee bind proof},
    V.verifyCnfSpend nf anchor leafOut fee bind proof = true →
      (hiddenSpending nf anchor leafOut fee bind proof).Proves V anchor nf ∧
        (sentNote nf anchor leafOut fee bind proof).leaf V = leafOut ∧
        (hiddenSpending nf anchor leafOut fee bind proof).amount.toNat =
          (sentNote nf anchor leafOut fee bind proof).amount.toNat + fee.toNat

end Obscura
