import Obscura.Config
import Obscura.Primitives

/-! # Transactions

The transaction records of package `tx`, their canonical serialization, the
transaction id and the core hash that every proof and signature is bound to.
-/

namespace Obscura.Tx

open Wire

/-- A confidential stealth output. -/
structure Output where
  oneTimeKey : Bytes
  txPubKey : Bytes
  commitment : Bytes
  rangeProof : Bytes := []
  primeNonce : UInt64 := 0
  lockUntil : UInt64 := 0
  encAmount : Bytes := []
  encMask : Bytes := []
  viewTag : UInt8 := 0
deriving DecidableEq

/-- A mint into the commitment tree with a public amount. -/
structure ZKOutput where
  leaf : Bytes
  amount : UInt64
  mintProof : Bytes := []
  key : Bytes := []
  txPubKey : Bytes := []
  viewTag : UInt8 := 0
deriving DecidableEq

/-- A confidential spend of one commitment-tree note into another. -/
structure CZKSpend where
  nullifier : Bytes
  anchor : Bytes
  leafOut : Bytes
  fee : UInt64
  proof : Bytes := []
  key : Bytes := []
  txPubKey : Bytes := []
  viewTag : UInt8 := 0
  encAmount : Bytes := []
deriving DecidableEq

/-- A commitment-tree spend with a public amount. -/
structure ZKInput where
  nullifier : Bytes
  amount : UInt64
  anchor : Bytes
  proof : Bytes := []
deriving DecidableEq

/-- A transparent spend, which names the output it spends. -/
structure Input where
  outputRef : Bytes
  ownershipProof : Bytes := []
  pseudoCommitment : Bytes
  equalityProof : Bytes := []
  keyImage : Bytes
  keyImageProof : Bytes := []
deriving DecidableEq

/-- A sender-anonymous spend of some coin of a pool. -/
structure AnonInput where
  poolID : UInt64
  tag : Bytes
  pseudoCommitment : Bytes
  proof : Bytes := []
deriving DecidableEq

/-- A new atomic-swap contract. -/
structure SwapOut where
  swapKey : Bytes
  amount : UInt64
  claimKey : Bytes
  refundKey : Bytes
  unlockHeight : UInt64
  claimA : Bytes
  claimB : Bytes
  popA : Bytes := []
  popB : Bytes := []
  claimR : Bytes
  claimT : Bytes
deriving DecidableEq

/-- The claim or the refund of a swap contract. -/
structure SwapIn where
  swapKey : Bytes
  isRefund : Bool
  sig : Bytes
deriving DecidableEq

/-- A deposit into a staking vault. -/
structure VaultOut where
  vaultKey : Bytes
  amount : UInt64
  term : UInt64
  ownerKey : Bytes
deriving DecidableEq

/-- The claim of a vault, with the yield it states. -/
structure VaultIn where
  vaultKey : Bytes
  yield : UInt64
  sig : Bytes
deriving DecidableEq

/-- A post-quantum output; the last three fields are reserved. -/
@[ext] structure PQOutput where
  oneTimeKey : Bytes
  amount : UInt64
  kemCiphertext : Bytes := []
  viewTag : Bytes := []
  commitment : Bytes := []
  encAmount : Bytes := []
  mac : Bytes := []
deriving DecidableEq

/-- A post-quantum spend. -/
structure PQInput where
  outputRef : Bytes
  p : Bytes
  wotsRoot : Bytes
  nullifier : Bytes
  anchor : Bytes
  hybridSig : Bytes := []
  membership : Bytes := []
deriving DecidableEq

/-- A transaction with all its kinds of inputs and outputs. -/
structure Transaction where
  version : UInt16 := 1
  isCoinbase : Bool := false
  inputs : List Input := []
  anonInputs : List AnonInput := []
  swapInputs : List SwapIn := []
  swapOutputs : List SwapOut := []
  outputs : List Output := []
  fee : UInt64 := 0
  conservation : Bytes := []
  height : UInt64 := 0
  minted : UInt64 := 0
  referrerTag : Bytes := []
  extraNonce : UInt64 := 0
  pqInputs : List PQInput := []
  pqOutputs : List PQOutput := []
  pqBlindDiff : Bytes := []
  vaultInputs : List VaultIn := []
  vaultOutputs : List VaultOut := []
  zkInputs : List ZKInput := []
  zkOutputs : List ZKOutput := []
  czkSpends : List CZKSpend := []
deriving DecidableEq

/-! ## Canonical serialization -/

/-- A field behind its four-byte length. -/
def wB (bytes : Bytes) : Bytes := bigEndian 4 bytes.length ++ bytes

/-- A word, highest byte first. -/
def wU64 (word : UInt64) : Bytes := putU64 word.toNat

/-- A flag in a byte. -/
def wBool (flag : Bool) : Bytes := [if flag then 1 else 0]

/-- The fields of an input in their order. -/
def Input.serialize (input : Input) : Bytes :=
  wB input.outputRef ++ wB input.ownershipProof ++ wB input.pseudoCommitment ++
    wB input.equalityProof ++ wB input.keyImage ++ wB input.keyImageProof

/-- The fields of an anonymous input in their order. -/
def AnonInput.serialize (input : AnonInput) : Bytes :=
  wU64 input.poolID ++ wB input.tag ++ wB input.pseudoCommitment ++ wB input.proof

/-- The fields of a swap input in their order. -/
def SwapIn.serialize (input : SwapIn) : Bytes :=
  wB input.swapKey ++ wBool input.isRefund ++ wB input.sig

/-- The fields of a swap output in their order. -/
def SwapOut.serialize (output : SwapOut) : Bytes :=
  wB output.swapKey ++ wU64 output.amount ++ wB output.claimKey ++ wB output.refundKey ++
    wU64 output.unlockHeight ++ wB output.claimA ++ wB output.claimB ++ wB output.popA ++
    wB output.popB ++ wB output.claimR ++ wB output.claimT

/-- The fields of an output in their order. -/
def Output.serialize (output : Output) : Bytes :=
  wB output.oneTimeKey ++ wB output.txPubKey ++ wB output.commitment ++ wB output.rangeProof ++
    wU64 output.primeNonce ++ wU64 output.lockUntil ++ wB output.encAmount ++
    wB output.encMask ++ [output.viewTag]

/-- The fields of a post-quantum input in their order. -/
def PQInput.serialize (input : PQInput) : Bytes :=
  wB input.outputRef ++ wB input.p ++ wB input.wotsRoot ++ wB input.nullifier ++
    wB input.anchor ++ wB input.hybridSig ++ wB input.membership

/-- The fields of a post-quantum output in their order. -/
def PQOutput.serialize (output : PQOutput) : Bytes :=
  wB output.oneTimeKey ++ wU64 output.amount ++ wB output.kemCiphertext ++ wB output.viewTag ++
    wB output.commitment ++ wB output.encAmount ++ wB output.mac

/-- The fields of a vault input in their order. -/
def VaultIn.serialize (input : VaultIn) : Bytes :=
  wB input.vaultKey ++ wU64 input.yield ++ wB input.sig

/-- The fields of a vault output in their order. -/
def VaultOut.serialize (output : VaultOut) : Bytes :=
  wB output.vaultKey ++ wU64 output.amount ++ wU64 output.term ++ wB output.ownerKey

/-- The fields of a nullifier spend in their order. -/
def ZKInput.serialize (input : ZKInput) : Bytes :=
  wB input.nullifier ++ wU64 input.amount ++ wB input.anchor ++ wB input.proof

/-- The fields of a mint in their order. -/
def ZKOutput.serialize (output : ZKOutput) : Bytes :=
  wB output.leaf ++ wU64 output.amount ++ wB output.mintProof ++ wB output.key ++
    wB output.txPubKey ++ [output.viewTag]

/-- The fields of a confidential spend in their order. -/
def CZKSpend.serialize (spend : CZKSpend) : Bytes :=
  wB spend.nullifier ++ wB spend.anchor ++ wB spend.leafOut ++ wU64 spend.fee ++
    wB spend.proof ++ wB spend.key ++ wB spend.txPubKey ++ [spend.viewTag] ++ wB spend.encAmount

namespace Transaction

/-- The canonical serialization, used for hashing, storage and the wire. -/
def serialize (t : Transaction) : Bytes :=
  bigEndian 2 t.version.toNat ++ wBool t.isCoinbase ++
    putList Input.serialize t.inputs ++
    putList AnonInput.serialize t.anonInputs ++
    putList SwapIn.serialize t.swapInputs ++
    putList SwapOut.serialize t.swapOutputs ++
    putList Output.serialize t.outputs ++
    wU64 t.fee ++ wB t.conservation ++ wU64 t.height ++ wU64 t.minted ++
    wB t.referrerTag ++ wU64 t.extraNonce ++
    putList PQInput.serialize t.pqInputs ++
    putList PQOutput.serialize t.pqOutputs ++
    wB t.pqBlindDiff ++
    putList VaultIn.serialize t.vaultInputs ++
    putList VaultOut.serialize t.vaultOutputs ++
    putList ZKInput.serialize t.zkInputs ++
    putList ZKOutput.serialize t.zkOutputs ++
    putList CZKSpend.serialize t.czkSpends

/-- The transaction without its proofs, signatures and conservation witnesses. -/
def core (t : Transaction) : Transaction :=
  { t with
    conservation := []
    inputs := t.inputs.map fun input =>
      { input with ownershipProof := [], equalityProof := [], keyImageProof := [] }
    anonInputs := t.anonInputs.map fun input => { input with proof := [] }
    swapInputs := t.swapInputs.map fun input => { input with sig := [] }
    pqBlindDiff := []
    pqInputs := t.pqInputs.map fun input => { input with hybridSig := [], membership := [] }
    vaultInputs := t.vaultInputs.map fun input => { input with sig := [] }
    zkInputs := t.zkInputs.map fun input => { input with proof := [] }
    zkOutputs := t.zkOutputs.map fun output => { output with mintProof := [] }
    czkSpends := t.czkSpends.map fun spend => { spend with proof := [] } }

end Transaction

/-- The network instance id. -/
def netID (V : Primitives) : Hash :=
  V.blake2b (ascii "Obscura/netID/v1" ++ ascii "obscura-mainnet-sr1" ++ ascii "classgroup" ++
    ascii "Obscura" ++ ascii "OBX" ++ putU64 Config.atomicPerCoin.toNat ++
    bigEndian 2 Config.classGroupDiscriminantBits)

variable (V : Primitives)

/-- The full transaction id. -/
def Transaction.hash (t : Transaction) : Hash :=
  V.blake2b t.serialize

/-- The hash of a transaction's content that proofs and signatures are bound to. -/
def Transaction.coreHash (t : Transaction) : Hash :=
  V.blake2b (ascii "OBX/tx/corehash/v1" ++ netID V ++ t.core.serialize)

end Obscura.Tx
