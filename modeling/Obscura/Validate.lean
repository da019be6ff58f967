import Obscura.Ledger
import Obscura.Lib.Checked
import Mathlib.Data.List.Sort

/-! # Transaction validation

The per-transaction rules of `validate.go`, `zkspend.go` and `pqvalidate.go`: one
function for each kind of input and output, in the order in which
`validateTxLocked` runs them. `skip` stands for a hit in the verified-proof cache:
it leaves out the cryptographic checks and nothing else.
-/

namespace Obscura

open Wire Tx Checked

/-- A check passes with a result, or fails with a message. -/
abbrev Check := Except String

/-- An error wrapping `errValidation`. -/
def invalid (message : String) : String := "chain: validation failed: " ++ message

/-- A checked addition. -/
def addU64 (a b : UInt64) (overflow : String) : Check UInt64 := do
  reject (a + b < a) (invalid overflow)
  pure (a + b)

/-- `mulU64`: the product and whether it was cut. -/
def mulU64 (a b : UInt64) : UInt64 × Bool :=
  if a = 0 ∨ b = 0 then (0, false) else (a * b, a * b / a != b)

/-- What the checks of one block have already consumed or created. -/
structure Seen where
  spent : List Bytes := []
  prime : List Bytes := []
deriving DecidableEq

/-- An encoding that is no point, or the identity. -/
def badPoint (V : Primitives) (point : Bytes) : Bool :=
  !V.pointDecodes point || V.pointIsIdentity point

/-- The nullifier recorded for a tag: canonical when it has a canonical form. -/
def recordedTag (V : Primitives) (tag : Bytes) : Bytes := (V.canonicalNullifier tag).getD tag

/-- `HasPQ`. -/
def hasPQ (t : Transaction) : Bool := !t.pqInputs.isEmpty || !t.pqOutputs.isEmpty

/-- The commitments of a list of outputs. -/
def commitmentList (outs : List Output) : List Bytes := outs.map Output.commitment

/-- The yield of a fixed-term vault, when it fits a word. -/
def vaultYield (amount rateBps : UInt64) : Option UInt64 :=
  let yield := amount.toNat * rateBps.toNat / 10_000
  if yield < 2 ^ 64 then some (UInt64.ofNat yield) else none

/-- The yield owed when a vault is claimed at a height. -/
def vaultYieldAt (v : VaultEntry) (claimHeight : Nat) : Option UInt64 :=
  if !v.isFlexible then
    vaultYield v.amount v.rateBps
  else
    some (Config.vaultFlexYield v.amount (claimHeight - v.depositHeight.toNat))

section Classical

variable (V : Primitives) (L : Ledger) (skip : Bool)

/-- Check one output and return its accumulator prime. -/
def checkOutput (seenPrime : List Bytes) (o : Output) : Check (Bytes × List Bytes) := do
  reject (o.oneTimeKey.length ≠ 32 ∨ o.txPubKey.length ≠ 32 ∨ o.commitment.length ≠ 32)
    (invalid "malformed output")
  reject (badPoint V o.oneTimeKey) (invalid "invalid output key")
  reject (!skip && !V.verifyRangeBytes o.commitment o.rangeProof) (invalid "range proof invalid")
  let pb ← orReject (V.hashToPrime o.oneTimeKey o.primeNonce) (invalid "invalid output prime")
  reject (hexstr pb ∈ seenPrime) (invalid "duplicate output prime in block")
  let kk := ascii "key:" ++ hexstr o.oneTimeKey
  reject (kk ∈ seenPrime) (invalid "duplicate output key in block")
  reject (L.coins.coinByKey o.oneTimeKey).isSome (invalid "duplicate output key")
  reject (L.outPrimes.has (hexstr pb)) (invalid "duplicate output prime")
  pure (pb, hexstr pb :: kk :: seenPrime)

/-- Every output in turn, with the primes that the block has used. -/
def checkOutputs (seenPrime : List Bytes) (outs : List Output) :
    Check (List Bytes × List Bytes) :=
  outs.foldlM (fun (primes, seen) o => do
    let (pb, seen) ← checkOutput V L skip seen o
    pure (primes ++ [pb], seen)) ([], seenPrime)

variable (height : Nat) (ctx : Hash)

/-- An input: its lengths, that it is unspent, mature and proved. -/
def checkInput (seenSpent : List Bytes) (input : Input) : Check (List Bytes) := do
  reject (input.outputRef.length ≠ 32 ∨ input.pseudoCommitment.length ≠ 32 ∨
    input.keyImage.length ≠ 32) (invalid "malformed input")
  let ref := hexstr input.outputRef
  reject (ref ∈ seenSpent) (invalid "double-spend within block")
  let entry ← orReject (L.utxoEntry input.outputRef)
    (invalid "spends nonexistent or already-spent output")
  reject (entry.isCoinbase ∧ height < entry.height + Config.coinbaseMaturity)
    (invalid "spends immature coinbase")
  reject (height < entry.lockUntil.toNat) (invalid "spends time-locked output")
  reject (!skip && !V.verifyOwnership input.outputRef input.ownershipProof ctx)
    (invalid "invalid ownership proof")
  reject (!skip && !V.verifyValueEquality input.pseudoCommitment entry.commitment
    input.equalityProof ctx) (invalid "invalid value-equality proof")
  let kib ← orReject (V.canonicalNullifier input.keyImage)
    (invalid "non-canonical or low-order key-image")
  let ki := hexstr kib
  reject (ki ∈ seenSpent) (invalid "duplicate key-image in block")
  reject (L.tags.has ki) (invalid "double-spend (key-image already seen)")
  reject (!skip && !V.verifyKeyImage input.outputRef input.keyImage input.keyImageProof ctx)
    (invalid "invalid key-image proof")
  pure (ki :: ref :: seenSpent)

/-- An anonymous input: its tag is new, its pool is large enough, its proof holds. -/
def checkAnonInput (seenSpent : List Bytes) (input : AnonInput) : Check (List Bytes) := do
  reject (input.tag.length ≠ 32 ∨ input.pseudoCommitment.length ≠ 32)
    (invalid "malformed anon input")
  let tagb ← orReject (V.canonicalNullifier input.tag)
    (invalid "non-canonical or low-order anon tag")
  let tk := hexstr tagb
  reject (tk ∈ seenSpent) (invalid "duplicate key-image in block")
  reject (L.tags.has tk) (invalid "anonymous double-spend (key-image seen)")
  let ring ← orReject (L.poolMembers input.poolID.toNat height)
    (invalid "anon pool incomplete or immature")
  reject (ring.length < 2 ∨ ring.length &&& (ring.length - 1) ≠ 0)
    (invalid "pool size must be a power of two >= 2")
  reject (!skip && !V.verifyAnonSpendBytes (ring.map CoinInfo.key) (ring.map CoinInfo.commitment)
    input.pseudoCommitment input.tag input.proof ctx) (invalid "anonymous spend proof invalid")
  pure (tk :: seenSpent)

/-- A refund needs the unlock height; a claim must stay the reorg margin below it. -/
def checkSwapPath (sw : SwapEntry) (sig : FullSig) (isRefund : Bool) : Check Unit :=
  if isRefund then do
    reject (height < sw.unlockHeight.toNat) (invalid "swap refund before unlock height")
    reject (!skip && !V.verifyFull sw.refundKey ctx sig) (invalid "invalid swap refund signature")
  else do
    reject (sw.unlockHeight.toNat < Config.swapReorgMargin ∨
      sw.unlockHeight.toNat - Config.swapReorgMargin < height)
      (invalid "swap claim within reorg margin of unlock height")
    reject (!skip && !V.claimBindingOK sig.R sw.claimR sw.claimT)
      (invalid "swap claim not bound to adaptor pre-signature")
    reject (!skip && !V.verifyFull sw.claimKey ctx sig) (invalid "invalid swap claim signature")

/-- A swap claim or refund; its amount re-enters as public value. -/
def checkSwapInput (state : List Bytes × UInt64) (input : SwapIn) :
    Check (List Bytes × UInt64) := do
  let (seenSpent, publicIn) := state
  reject (input.swapKey.length ≠ 32) (invalid "malformed swap input")
  let sk := ascii "swap:" ++ hexstr input.swapKey
  reject (sk ∈ seenSpent) (invalid "duplicate swap spend in block")
  let sw ← orReject L.swaps[hexstr input.swapKey]? (invalid "spends nonexistent/closed swap")
  let sig ← orReject (V.parseFullSig input.sig) (invalid "bad swap signature")
  checkSwapPath V skip height ctx sw sig input.isRefund
  let publicIn ← addU64 publicIn sw.amount "swap input amount overflow"
  pure (sk :: seenSpent, publicIn)

/-- A vault claim releases principal and the stated yield as public value. -/
def checkVaultInput (state : List Bytes × UInt64) (input : VaultIn) :
    Check (List Bytes × UInt64) := do
  let (seenSpent, publicIn) := state
  reject (input.vaultKey.length ≠ 32) (invalid "malformed vault input")
  let vk := ascii "vaultin:" ++ hexstr input.vaultKey
  reject (vk ∈ seenSpent) (invalid "duplicate vault claim in block")
  let v ← orReject L.vaults[hexstr input.vaultKey]? (invalid "claims nonexistent/closed vault")
  reject (height < v.maturity) (invalid "vault claim before maturity")
  let sig ← orReject (V.parseFullSig input.sig) (invalid "bad vault signature")
  reject (!skip && !V.verifyFull v.ownerKey ctx sig) (invalid "invalid vault claim signature")
  let cap ← orReject (vaultYieldAt v height) (invalid "vault yield computation overflow")
  reject (cap < input.yield) (invalid "vault claim yield exceeds entitlement")
  let publicIn ← addU64 publicIn v.amount "vault principal overflow"
  let publicIn ← addU64 publicIn input.yield "vault yield overflow"
  pure (vk :: seenSpent, publicIn)

/-- The cryptographic conditions on a new swap contract. -/
def checkSwapKeys (so : SwapOut) : Check Unit := do
  reject (V.aggregateKeyVerified so.claimA so.claimB so.popA so.popB ≠ some so.claimKey)
    (invalid "swap claim key not a proven 2-of-2 aggregate")
  reject (badPoint V so.claimT) (invalid "swap adaptor point invalid")
  reject (!V.pointDecodes so.claimR) (invalid "swap pre-signature nonce invalid")

/-- A new swap contract locks public value. -/
def checkSwapOutput (state : List Bytes × UInt64) (so : SwapOut) :
    Check (List Bytes × UInt64) := do
  let (seenSpent, publicOut) := state
  reject (so.swapKey.length ≠ 32 ∨ so.claimKey.length ≠ 32 ∨ so.refundKey.length ≠ 32 ∨
    so.claimA.length ≠ 32 ∨ so.claimB.length ≠ 32 ∨ so.claimR.length ≠ 32 ∨
    so.claimT.length ≠ 32) (invalid "malformed swap output")
  skipping skip (checkSwapKeys V so)
  let k := ascii "swapout:" ++ hexstr so.swapKey
  reject (k ∈ seenSpent ∨ L.swaps[hexstr so.swapKey]?.isSome) (invalid "duplicate swap key")
  let rk := ascii "swapnonce:" ++ hexstr so.claimR
  reject (rk ∈ seenSpent) (invalid "duplicate swap adaptor nonce in block")
  reject (inSet L.swapNonces (hexstr so.claimR)) (invalid "swap adaptor nonce reuse (ClaimR already funded)")
  reject (so.amount = 0 ∨ Config.moneySupplyCap < so.amount) (invalid "bad swap amount")
  reject (so.unlockHeight.toNat < height + Config.swapReorgMargin)
    (invalid "swap unlock height within reorg margin (dead claim window)")
  let publicOut ← addU64 publicOut so.amount "swap output amount overflow"
  pure (rk :: k :: seenSpent, publicOut)

/-- A vault deposit locks public value. -/
def checkVaultOutput (state : List Bytes × UInt64) (vo : VaultOut) :
    Check (List Bytes × UInt64) := do
  let (seenSpent, publicOut) := state
  reject (vo.vaultKey.length ≠ 32 ∨ vo.ownerKey.length ≠ 32) (invalid "malformed vault output")
  reject (Config.vaultRateBps vo.term).isNone (invalid "invalid vault term")
  reject (vo.amount = 0 ∨ Config.moneySupplyCap < vo.amount) (invalid "bad vault amount")
  let k := ascii "vaultout:" ++ hexstr vo.vaultKey
  reject (k ∈ seenSpent ∨ L.vaults[hexstr vo.vaultKey]?.isSome) (invalid "duplicate vault key")
  reject (badPoint V vo.ownerKey) (invalid "invalid vault owner key")
  let publicOut ← addU64 publicOut vo.amount "vault output amount overflow"
  pure (k :: seenSpent, publicOut)

/-! ## ZK notes -/

/-- A public-amount spend of a note. -/
def checkZKInput (bind : Bytes) (state : List Bytes × UInt64) (input : ZKInput) :
    Check (List Bytes × UInt64) := do
  let (seenSpent, publicIn) := state
  let nf ← orReject (parseNode input.nullifier)
    (invalid "malformed or non-canonical zk nullifier")
  let anchor ← orReject (parseNode input.anchor) (invalid "malformed or non-canonical zk anchor")
  reject (Config.moneySupplyCap < input.amount) (invalid "zk spend amount exceeds supply cap")
  let nk := ascii "zk:" ++ hexstr input.nullifier
  reject (nk ∈ seenSpent) (invalid "duplicate zk nullifier in block")
  reject (inSet L.zkNull (hexstr input.nullifier))
    (invalid "zk double-spend (nullifier already seen)")
  reject (!inSet L.cmRoots (hexstr input.anchor)) (invalid "unknown zk anchor")
  skipping skip do
    let proof ← (V.unmarshalProof input.proof).mapError fun err =>
      invalid ("zk proof decode: " ++ err)
    reject (!V.verifyNfSpend input.amount anchor nf bind proof) (invalid "zk spend proof invalid")
  let publicIn ← addU64 publicIn input.amount "zk public value overflow"
  pure (nk :: seenSpent, publicIn)

/-- `validateZKInputsLocked`: the nullifiers that it uses and the amount that it takes out. -/
def validateZKInputsLocked (t : Transaction) (bind : Bytes) (seenSpent : List Bytes) :
    Check (List Bytes × UInt64) := do
  reject (Config.maxInputs < t.zkInputs.length) (invalid "too many zk inputs")
  t.zkInputs.foldlM (checkZKInput V L skip bind) (seenSpent, 0)

/-- A mint of a note with a public amount. -/
def checkZKOutput (bind : Bytes) (publicOut : UInt64) (o : ZKOutput) : Check UInt64 := do
  let leaf ← orReject (parseNode o.leaf) (invalid "malformed or non-canonical zk leaf")
  reject (Config.moneySupplyCap < o.amount) (invalid "zk mint amount exceeds supply cap")
  skipping skip do
    let proof ← (V.unmarshalProof o.mintProof).mapError fun err =>
      invalid ("zk mint decode: " ++ err)
    reject (!V.verifyNfMint o.amount leaf bind proof) (invalid "zk mint proof invalid")
  addU64 publicOut o.amount "zk mint value overflow"

/-- `validateZKOutputsLocked`: the amount that it puts in. -/
def validateZKOutputsLocked (t : Transaction) (bind : Bytes) : Check UInt64 := do
  reject (Config.maxOutputs < t.zkOutputs.length) (invalid "too many zk outputs")
  t.zkOutputs.foldlM (checkZKOutput V skip bind) 0

/-- A confidential spend of a note into a new one; only the fee is public. -/
def checkCZKSpend (bind : Bytes) (state : List Bytes × UInt64) (s : CZKSpend) :
    Check (List Bytes × UInt64) := do
  let (seenSpent, publicIn) := state
  let nf ← orReject (parseNode s.nullifier) (invalid "malformed or non-canonical czk nullifier")
  let anchor ← orReject (parseNode s.anchor) (invalid "malformed or non-canonical czk anchor")
  let leafOut ← orReject (parseNode s.leafOut) (invalid "malformed or non-canonical czk leaf")
  reject (2 ^ Config.confidentialBits ≤ s.fee.toNat) (invalid "czk fee out of range")
  let nk := ascii "zk:" ++ hexstr s.nullifier
  reject (nk ∈ seenSpent) (invalid "duplicate czk nullifier in block")
  reject (inSet L.zkNull (hexstr s.nullifier))
    (invalid "czk double-spend (nullifier already seen)")
  reject (!inSet L.cmRoots (hexstr s.anchor)) (invalid "unknown czk anchor")
  skipping skip do
    let proof ← (V.unmarshalProof s.proof).mapError fun err =>
      invalid ("czk proof decode: " ++ err)
    reject (!V.verifyCnfSpend nf anchor leafOut s.fee bind proof)
      (invalid "czk spend proof invalid")
  let publicIn ← addU64 publicIn s.fee "czk fee overflow"
  pure (nk :: seenSpent, publicIn)

/-- `validateCZKSpendsLocked`: the nullifiers that it uses and the fees that it pays. -/
def validateCZKSpendsLocked (t : Transaction) (bind : Bytes) (seenSpent : List Bytes) :
    Check (List Bytes × UInt64) := do
  reject (Config.maxInputs < t.czkSpends.length) (invalid "too many confidential zk spends")
  t.czkSpends.foldlM (checkCZKSpend V L skip bind) (seenSpent, 0)

end Classical

/-! ## Post-quantum transactions -/

section PostQuantum

variable (V : Primitives) (L : Ledger)

/-- The nullifier of an output. -/
def pqNullifierOf (outputRef : Bytes) : Hash :=
  V.blake2b (ascii "Obscura/pq/nullifier/v1" ++ outputRef)

/-- The key that a hybrid signature answers to. -/
def pqHybridKey (p r : Bytes) : Hash :=
  V.blake2b (p ++ ascii "Obscura/pq/hybrid/v1" ++ r)

/-- The size of a stealth view tag. -/
def tagSize : Nat := 16

/-- `ParseHybridSig`: two signatures after their lengths. -/
def parseHybridSig (bytes : Bytes) : Option HybridSig :=
  if bytes.length < 8 then
    none
  else
    let sl := ofBigEndian (bytes.take 4)
    let rest := bytes.drop 4
    if bytes.length < 4 + sl + 4 then
      none
    else
      let wl := ofBigEndian ((rest.drop sl).take 4)
      let wots := (rest.drop sl).drop 4
      if wots.length ≠ wl then none else some ⟨rest.take sl, wots⟩

/-- A post-quantum output: its lengths, and that its key is new. -/
def checkPQOutput (seenPrime : List Bytes) (o : PQOutput) : Check (List Bytes) := do
  reject (o.oneTimeKey.length ≠ 32 ∨ o.kemCiphertext.length ≠ 1088)
    (invalid "malformed pq output")
  reject (o.viewTag.length ≠ tagSize) (invalid "bad pq view tag")
  reject (o.commitment ≠ [] ∨ o.encAmount ≠ [] ∨ o.mac ≠ [])
    (invalid "reserved pq fields must be empty")
  reject (o.amount = 0 ∨ Config.moneySupplyCap < o.amount)
    (invalid "pq output amount out of range")
  let kk := ascii "pqkey:" ++ hexstr o.oneTimeKey
  reject (kk ∈ seenPrime) (invalid "duplicate pq output key in block")
  reject L.pqIndex[hexstr o.oneTimeKey]?.isSome (invalid "duplicate pq output key")
  pure (kk :: seenPrime)

/-- A post-quantum input: its lengths, nullifier, signatures and path. -/
def checkPQInput (ctx : Hash) (state : List Bytes × UInt64) (input : PQInput) :
    Check (List Bytes × UInt64) := do
  let (seenSpent, inSum) := state
  reject (input.outputRef.length ≠ 32 ∨ input.p.length ≠ 32 ∨ input.wotsRoot.length ≠ 32 ∨
    input.nullifier.length ≠ 32 ∨ input.anchor.length ≠ 32) (invalid "malformed pq input")
  let ref := hexstr input.outputRef
  reject (ref ∈ seenSpent) (invalid "double-spend within block (pq ref)")
  let spent ← orReject L.pqUtxo[ref]? (invalid "spends nonexistent or already-spent pq output")
  reject (hexstr (pqHybridKey V input.p input.wotsRoot) ≠ ref)
    (invalid "pq input keys do not match output")
  reject (hexstr (pqNullifierOf V input.outputRef) ≠ hexstr input.nullifier)
    (invalid "pq nullifier not bound to output")
  let nk := hexstr input.nullifier
  reject (nk ∈ seenSpent) (invalid "duplicate pq nullifier in block")
  reject (inSet L.pqNull nk) (invalid "double-spend (pq nullifier already seen)")
  reject (!inSet L.pqRoots (hexstr input.anchor)) (invalid "unknown pq anchor")
  let mp ← orReject (PQAccum.parseProof input.membership)
    (invalid "malformed pq membership proof")
  reject (!PQAccum.verify V input.anchor input.outputRef mp)
    (invalid "invalid pq membership proof")
  let sig ← orReject (parseHybridSig input.hybridSig) (invalid "malformed pq signature")
  reject (!V.hybridVerify input.outputRef input.p input.wotsRoot ctx sig)
    (invalid "pq spend authorization failed")
  let inSum ← addU64 inSum spent.amount "pq input sum overflow"
  pure (nk :: ref :: seenSpent, inSum)

/-- A pure post-quantum transaction: public amounts, the fee burned. -/
def validatePQTxLocked (t : Transaction) (seen : Seen) : Check Seen := do
  reject (t.version ≠ 2) (invalid "pq tx must be version 2")
  reject (t.inputs ≠ [] ∨ t.anonInputs ≠ [] ∨ t.swapInputs ≠ [] ∨ t.swapOutputs ≠ [] ∨
    t.outputs ≠ [] ∨ t.conservation ≠ [] ∨ t.zkInputs ≠ [] ∨ t.zkOutputs ≠ [] ∨
    t.czkSpends ≠ [] ∨ t.vaultInputs ≠ [] ∨ t.vaultOutputs ≠ [])
    (invalid "pq tx must carry only pq fields")
  reject (t.pqBlindDiff ≠ []) (invalid "pq blind-diff must be empty")
  reject (t.height ≠ 0 ∨ t.minted ≠ 0 ∨ t.referrerTag ≠ [] ∨ t.extraNonce ≠ 0)
    (invalid "coinbase-only fields set on pq tx")
  reject (t.pqInputs = [] ∨ t.pqOutputs = []) (invalid "pq tx needs inputs and outputs")
  reject (Config.maxInputs < t.pqInputs.length ∨ Config.maxOutputs < t.pqOutputs.length)
    (invalid "too many pq inputs/outputs")
  let (minFee, overflow) := mulU64 (UInt64.ofNat t.serialize.length) Config.minFeePerByte
  reject overflow (invalid "pq fee computation overflow")
  reject (t.fee < minFee) (invalid "pq fee below minimum")
  let (spent, inSum) ← t.pqInputs.foldlM (checkPQInput V L (t.coreHash V)) (seen.spent, 0)
  let (prime, outSum) ← t.pqOutputs.foldlM (fun (state : List Bytes × UInt64) o => do
    let prime ← checkPQOutput L state.1 o
    let outSum ← addU64 state.2 o.amount "pq output sum overflow"
    pure (prime, outSum)) (seen.prime, 0)
  let spentTotal ← addU64 outSum t.fee "pq value overflow"
  reject (inSum ≠ spentTotal) (invalid "pq value not conserved")
  pure ⟨spent, prime⟩

end PostQuantum

/-! ## A whole transaction -/

section Transaction

variable (V : Primitives) (L : Ledger) (skip : Bool) (t : Transaction) (height : Nat)

/-- The structural conditions on a classical transaction. -/
def checkShape : Check Unit := do
  reject (t.pqBlindDiff ≠ [] ∨ t.pqInputs ≠ [] ∨ t.pqOutputs ≠ [])
    (invalid "PQ fields on non-PQ transaction")
  reject (t.inputs.length + t.anonInputs.length + t.swapInputs.length + t.vaultInputs.length +
    t.zkInputs.length + t.czkSpends.length = 0) (invalid "no inputs")
  reject (t.outputs.length + t.swapOutputs.length + t.vaultOutputs.length + t.zkOutputs.length +
    t.czkSpends.length = 0) (invalid "no outputs")
  reject (Config.maxInputs < t.inputs.length ∨ Config.maxInputs < t.anonInputs.length ∨
    Config.maxInputs < t.swapInputs.length ∨ Config.maxOutputs < t.outputs.length ∨
    Config.maxOutputs < t.swapOutputs.length ∨ Config.maxInputs < t.vaultInputs.length ∨
    Config.maxOutputs < t.vaultOutputs.length) (invalid "too many inputs/outputs")
  reject (t.height ≠ 0 ∨ t.minted ≠ 0 ∨ t.referrerTag ≠ [] ∨ t.extraNonce ≠ 0)
    (invalid "coinbase-only fields set on normal tx")
  let (minFee, overflow) := mulU64 (UInt64.ofNat t.serialize.length) Config.minFeePerByte
  reject overflow (invalid "fee computation overflow")
  reject (t.fee < minFee) (invalid "fee below minimum")

/-- The commitments of the confidential inputs. -/
def pseudoIns : List Bytes :=
  t.inputs.map Input.pseudoCommitment ++ t.anonInputs.map AnonInput.pseudoCommitment

/-- The value legs of a classical transaction, in the order of the source. -/
def validateLegs (seen : Seen) : Check (List Bytes × Seen) := do
  let ctx := t.coreHash V
  let spent ← t.inputs.foldlM (checkInput V L skip height ctx) seen.spent
  let spent ← t.anonInputs.foldlM (checkAnonInput V L skip height ctx) spent
  let (spent, publicIn) ← t.swapInputs.foldlM (checkSwapInput V L skip height ctx) (spent, 0)
  let (spent, publicIn) ←
    t.vaultInputs.foldlM (checkVaultInput V L skip height ctx) (spent, publicIn)
  let (spent, publicOut) ←
    t.swapOutputs.foldlM (checkSwapOutput V L skip height) (spent, t.fee)
  let (spent, publicOut) ← t.vaultOutputs.foldlM (checkVaultOutput V L) (spent, publicOut)
  let (primes, prime) ← checkOutputs V L skip seen.prime t.outputs
  let (spent, zkIn) ← validateZKInputsLocked V L skip t ctx spent
  let publicIn ← addU64 publicIn zkIn "public value overflow"
  let zkOut ← validateZKOutputsLocked V skip t ctx
  let publicOut ← addU64 publicOut zkOut "public value overflow"
  let (spent, czkIn) ← validateCZKSpendsLocked V L skip t ctx spent
  let publicIn ← addU64 publicIn czkIn "public value overflow"
  reject (!skip && !V.verifyConservationGen (pseudoIns t) (commitmentList t.outputs) publicIn
    publicOut t.conservation ctx) (invalid "value conservation invalid")
  pure (primes, ⟨spent, prime⟩)

/-- Validate a non-coinbase transaction; return the primes of its outputs. -/
def validateTxLocked (seen : Seen) : Check (List Bytes × Seen) := do
  reject t.isCoinbase (invalid "coinbase out of position")
  if hasPQ t then do
    let seen ← validatePQTxLocked V L t seen
    pure ([], seen)
  else do
    checkShape t
    validateLegs V L skip t height seen

end Transaction

end Obscura
