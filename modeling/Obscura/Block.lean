import Obscura.Tx

/-! # Blocks

Headers and blocks with their canonical serializations, the transaction Merkle
tree, and the proof-of-retrievability challenge that ties a block to the bodies
of earlier ones.
-/

namespace Obscura

open Wire Tx

/-- The zero value of a `[32]byte`. -/
def zeroHash : Hash := List.replicate 32 0

/-- The fields that are hashed for the proof of work, and the nonce. -/
structure Header where
  version : Nat := 1
  height : Nat
  prevHash : Hash
  timestamp : Int
  difficulty : Nat
  nonce : Nat := 0
  merkleRoot : Hash := zeroHash
  accValue : Bytes
  accSize : Nat := 0
  pqAccRoot : Hash := zeroHash
  nullRoot : Hash := zeroHash
  cmRoot : Hash := zeroHash
  numTxs : Nat := 0
  porRoot : Hash := zeroHash
  stateRoot : Hash
deriving DecidableEq

/-- One sibling on the path from a leaf to the root; `right` when the sibling is
the right child. -/
structure MerkleStep where
  hash : Hash
  right : Bool
deriving DecidableEq

/-- An answered retrievability challenge. -/
structure PoREntry where
  height : Nat
  txBytes : Bytes
  steps : List MerkleStep
deriving DecidableEq

/-- A header, the coinbase and the other transactions, and the answers to the challenges. -/
structure Block where
  header : Header
  txs : List Transaction
  por : List PoREntry := []
deriving DecidableEq

/-- A signed 64-bit integer in two's complement. -/
def wi64 (value : Int) : Bytes := putU64 (value % 2 ^ 64).toNat

namespace Header

/-- Everything after the nonce in the serialized header. -/
def roots (h : Header) : Bytes :=
  h.merkleRoot ++ wB h.accValue ++ putU64 h.accSize ++ h.pqAccRoot ++ h.nullRoot ++ h.cmRoot ++
    bigEndian 4 h.numTxs ++ h.porRoot ++ h.stateRoot

/-- The bytes hashed by the PoW, less the nonce. -/
def powPreimage (h : Header) : Bytes :=
  bigEndian 2 h.version ++ putU64 h.height ++ h.prevHash ++ wi64 h.timestamp ++
    putU64 h.difficulty ++ h.roots

/-- The encoding that the block id hashes. -/
def serialize (h : Header) : Bytes :=
  bigEndian 2 h.version ++ putU64 h.height ++ h.prevHash ++ wi64 h.timestamp ++
    putU64 h.difficulty ++ putU64 h.nonce ++ h.roots

variable (V : Primitives)

/-- The proof-of-work hash under the seed of an epoch. -/
def powHashSeed (h : Header) (seed : Bytes) : Hash :=
  V.powHashSeed seed (h.powPreimage ++ putU64 h.nonce)

/-- The block id. -/
def id (h : Header) : Hash :=
  V.blake2b h.serialize

end Header

/-- An answer on the wire. -/
def PoREntry.serialize (entry : PoREntry) : Bytes :=
  putU64 entry.height ++ wB entry.txBytes ++ bigEndian 4 entry.steps.length ++
    entry.steps.flatMap fun step => step.hash ++ wBool step.right

/-- A block on the wire; each part is framed by its length. -/
def Block.serialize (b : Block) : Bytes :=
  wB b.header.serialize ++ putList (fun t => wB t.serialize) b.txs ++
    putList (fun entry => wB entry.serialize) b.por

/-! ## The transaction Merkle tree -/

section Merkle

variable (V : Primitives)

/-- A transaction id as a leaf. -/
def leafHash (txid : Hash) : Hash := V.blake2b (0 :: txid)

/-- An inner node of the transactions' tree. -/
def internalHash (left right : Hash) : Hash := V.blake2b (1 :: (left ++ right))

/-- One layer up; an odd last node is paired with itself. -/
def mergePairs : List Hash → List Hash
  | [] => []
  | [lone] => [internalHash V lone lone]
  | left :: right :: rest => internalHash V left right :: mergePairs rest

/-- Merge until one node is left. As many rounds as nodes suffice. -/
def mergeLayers : Nat → List Hash → Hash
  | _, [] => zeroHash
  | _, [root] => root
  | 0, first :: _ => first
  | rounds + 1, layer => mergeLayers rounds (mergePairs V layer)

/-- The root over the transaction ids. -/
def merkleRoot (txs : List Transaction) : Hash :=
  mergeLayers V txs.length (txs.map fun t => leafHash V (t.hash V))

/-- The branch above position `pos` of a layer. -/
def branchFrom : Nat → List Hash → Nat → List MerkleStep
  | 0, _, _ => []
  | rounds + 1, layer, pos =>
    if layer.length ≤ 1 then
      []
    else
      let step : MerkleStep :=
        if pos % 2 = 0 then ⟨(layer[pos + 1]?.orElse fun _ => layer[pos]?).getD zeroHash, true⟩
        else ⟨layer[pos - 1]?.getD zeroHash, false⟩
      step :: branchFrom rounds (mergePairs V layer) (pos / 2)

/-- The inclusion branch of a transaction. -/
def merkleProof (txs : List Transaction) (index : Nat) : Option (List MerkleStep) :=
  if index < txs.length then
    some (branchFrom V txs.length (txs.map fun t => leafHash V (t.hash V)) index)
  else
    none

/-- A branch leads from a transaction id to the root. -/
def verifyMerkleProof (txid : Hash) (steps : List MerkleStep) (root : Hash) : Bool :=
  steps.foldl (fun node step =>
    if step.right then internalHash V node step.hash else internalHash V step.hash node)
    (leafHash V txid) == root

end Merkle

/-! ## Proof of retrievability -/

section PoR

variable (V : Primitives)

/-- The root committed in the header; zero for no entries. -/
def porRootOf (entries : List PoREntry) : Hash :=
  if entries.isEmpty then
    zeroHash
  else
    V.blake2b (ascii "OBX/por-root/v1" ++ entries.flatMap fun entry => wB entry.serialize)

/-- What the challenge of a slot is drawn from. -/
def porSeed (prevHash : Hash) (slot : Nat) : Hash :=
  V.blake2b (ascii "OBX/por-chal/v1" ++ prevHash ++ bigEndian 4 slot)

/-- The lowest challengeable height. -/
def porWindowLow (blockHeight : Nat) : Nat :=
  blockHeight - Config.porWindow

/-- The height that a slot asks for, drawn from the window below the block. -/
def porChallengeHeight (prevHash : Hash) (slot blockHeight : Nat) : Nat :=
  let low := porWindowLow blockHeight
  low + ofBigEndian ((porSeed V prevHash slot).take 8) % (blockHeight - low)

/-- The transaction that a slot asks for. -/
def porChallengeIndex (prevHash : Hash) (slot numTxs : Nat) : Nat :=
  if numTxs = 0 then 0
  else ofBigEndian (((porSeed V prevHash slot).drop 8).take 8) % numTxs

/-- The leaf index a branch addresses; bits from the 64th on are lost. -/
def indexFromSteps (steps : List MerkleStep) : Nat :=
  (steps.zipIdx.map fun (step, level) => if step.right ∨ 64 ≤ level then 0 else 2 ^ level).sum

/-- An answer for the height and the place that were asked. -/
def verifyPoREntry (entry : PoREntry) (expectHeight expectIdx : Nat) (root : Hash) : Bool :=
  entry.height == expectHeight && indexFromSteps entry.steps == expectIdx &&
    verifyMerkleProof V (V.blake2b entry.txBytes) entry.steps root

/-- Every block after genesis answers challenges. -/
def porRequired (height : Nat) : Bool := height ≥ 1 && Config.porChallenges > 0

end PoR

end Obscura
