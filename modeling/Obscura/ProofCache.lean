import Obscura.Replay

/-! # The verified-proof cache

A node skips the proofs of a transaction whose id is in `verifiedProofs`, and adds
an id when it has verified the proofs. `validateBlockCached` is block validation
with the cache it reads and fills. Its verdict splits into the rules that always
run and, for every transaction that is not skipped, its proofs
(`validateBlock_split`).
-/

namespace Obscura

open Wire Tx Checked

/-! ## The cache -/

/-- What an id in the cache stands for: the transaction, and the state and height
it was verified at. The code keeps the id alone. -/
structure Verification where
  tx : Transaction
  ledger : Ledger
  height : Nat

/-- What has been verified, by transaction. -/
abbrev ProofCache := GoMap Verification

/-- The size at which the cache takes no more. -/
def maxVerifiedProofs : Nat := 500_000

/-- `proofVerified`: whether a transaction has an entry. -/
def proofVerified (cache : ProofCache) (id : Hash) : Bool := cache.contains id

/-- `markProofVerified`: an entry more, while there is room. -/
def markProofVerified (cache : ProofCache) (id : Hash) (verification : Verification) :
    ProofCache :=
  if cache.size < maxVerifiedProofs then cache.insert id verification else cache

section Cached

variable (V : Primitives) (L : Ledger)

/-- The cache after a transaction was validated with it. -/
def cacheAfterTx (cache : ProofCache) (t : Transaction) (height : Nat) (seen : Seen) :
    ProofCache :=
  let skip := proofVerified cache (t.hash V)
  if (validateTxLocked V L skip t height seen).isOk && !skip && !hasPQ t then
    markProofVerified cache (t.hash V) ⟨t, L, height⟩
  else
    cache

/-- Mempool admission. -/
def validateStandaloneTx (cache : ProofCache) (t : Transaction) : Check Unit × ProofCache :=
  if t.isCoinbase then
    (.error (invalid "coinbase not standalone"), cache)
  else
    match L.tip? with
    | none => (.error "runtime error: index out of range [-1]", cache)
    | some tip =>
      let skip := proofVerified cache (t.hash V)
      ((validateTxLocked V L skip t (tip.height + 1) ⟨[], []⟩).map fun _ => (),
        cacheAfterTx V L cache t (tip.height + 1) ⟨[], []⟩)

/-- What it means that a transaction passes alone. -/
theorem validateStandaloneTx_ok {cache : ProofCache} {t : Transaction} :
    (validateStandaloneTx V L cache t).1 = .ok () ↔
      ∃ tip result, L.tip? = some tip ∧
        validateTxLocked V L (proofVerified cache (t.hash V)) t (tip.height + 1) ⟨[], []⟩ =
          .ok result := by
  unfold validateStandaloneTx
  cases coinbase : t.isCoinbase with
  | true =>
    simp only [↓reduceIte, reduceCtorEq, false_iff, not_exists, not_and]
    intro tip result _ accepted
    unfold validateTxLocked at accepted
    rw [reject_bind_ok] at accepted
    exact accepted.1 coinbase
  | false =>
    simp only [Bool.false_eq_true, ↓reduceIte]
    cases L.tip? with
    | none => simp
    | some tip =>
      dsimp only
      simp only [Option.some.injEq, exists_and_left, exists_eq_left']
      cases validateTxLocked V L (proofVerified cache (t.hash V)) t (tip.height + 1) ⟨[], []⟩ with
      | error err => simp [Except.map]
      | ok result => simp [Except.map]

/-- `prewarmTx`: the proofs that the cache does not know are checked and marked. -/
def prewarmTx (height : Nat) (cache : ProofCache) (t : Transaction) : ProofCache :=
  let skip := proofVerified cache (t.hash V)
  if t.isCoinbase || skip then
    cache
  else if (validateTxLocked V L skip t height ⟨[], []⟩).isOk then
    markProofVerified (cacheAfterTx V L cache t height ⟨[], []⟩) (t.hash V) ⟨t, L, height⟩
  else
    cache

/-- Verify the transactions of a block one by one before the sequential pass;
`parallel` says whether the node has this pass switched on and the cores for it. -/
def prewarmProofCacheLocked (parallel : Bool) (txs : List Transaction) (height : Nat)
    (cache : ProofCache) : ProofCache :=
  if !parallel || txs.length < 2 then cache else txs.foldl (prewarmTx V L height) cache

/-- The sequential pass, with the cache at each transaction. -/
def tallyTxs (b : Block) : ProofCache → TxTally → List Transaction → Check TxTally × ProofCache
  | cache, tally, [] => (.ok tally, cache)
  | cache, tally, t :: txs =>
    let next := cacheAfterTx V L cache t b.header.height tally.seen
    match tallyTx V (fun t => proofVerified cache (t.hash V)) L b tally t with
    | .error error => (.error error, next)
    | .ok tally => tallyTxs b next tally txs

/-- The part of block validation before the transactions. -/
def validateFront (now : Int) (b : Block) : Check (Transaction × TxTally) := do
  let tip ← orReject L.tip? "runtime error: index out of range [-1]"
  checkHeader V now L b tip
  let cb ← checkTxList V b
  let (primes, prime) ← checkOutputs V L false [] cb.outputs
  checkCoinbaseLegs cb
  pure (cb, ⟨primes, ⟨[], prime⟩, 0⟩)

/-- The part of block validation after the transactions. -/
def validateBack (b : Block) (cb : Transaction) (tally : TxTally) : Check Unit := do
  checkVaultYields L b
  checkCoinbase V L b cb tally.fees
  reject (merkleRoot V b.txs ≠ b.header.merkleRoot) (invalid "merkle root mismatch")
  validatePoRLocked V L b
  checkRoots V L b tally.primes

/-- `validateBlockLocked` with the cache it reads and fills. -/
def validateBlockCached (parallel : Bool) (now : Int) (cache : ProofCache) (b : Block) :
    Check Unit × ProofCache :=
  match validateFront V L now b with
  | .error error => (.error error, cache)
  | .ok (cb, start) =>
    let warm := prewarmProofCacheLocked V L parallel b.txs.tail b.header.height cache
    match tallyTxs V L b warm start b.txs.tail with
    | (.error error, cache) => (.error error, cache)
    | (.ok tally, cache) => (validateBack V L b cb tally, cache)

end Cached

/-! ## Rules and proofs -/

/-- The proofs that a cache hit leaves out. -/
structure TxProofs (V : Primitives) (L : Ledger) (height : Nat) (t : Transaction) : Prop where
  inputs : ∀ input ∈ t.inputs, ∀ entry, L.utxoEntry input.outputRef = some entry →
    InputProofs V (t.coreHash V) input entry.commitment
  anonInputs : ∀ input ∈ t.anonInputs, ∀ ring,
    L.poolMembers input.poolID.toNat height = some ring → AnonProofs V (t.coreHash V) input ring
  swapInputs : ∀ input ∈ t.swapInputs, ∀ sw, L.swaps[hexstr input.swapKey]? = some sw →
    ∀ sig, V.parseFullSig input.sig = some sig → SwapProofs V (t.coreHash V) input sw sig
  vaultInputs : ∀ input ∈ t.vaultInputs, ∀ v, L.vaults[hexstr input.vaultKey]? = some v →
    ∀ sig, V.parseFullSig input.sig = some sig → V.verifyFull v.ownerKey (t.coreHash V) sig = true
  swapOutputs : ∀ so ∈ t.swapOutputs, SwapKeysOk V so
  outputs : ∀ o ∈ t.outputs, V.verifyRangeBytes o.commitment o.rangeProof = true
  zkInputs : ∀ input ∈ t.zkInputs, ZKInputProof V (t.coreHash V) input
  zkOutputs : ∀ o ∈ t.zkOutputs, ZKOutputProof V (t.coreHash V) o
  czkSpends : ∀ s ∈ t.czkSpends, CZKProof V (t.coreHash V) s
  conservation : ∀ publicIn publicOut : UInt64, publicIn.toNat = publicInOf L t →
    publicOut.toNat = publicOutOf t →
    V.verifyConservationGen (pseudoIns t) (commitmentList t.outputs) publicIn publicOut
      t.conservation (t.coreHash V) = true

section Split

variable (V : Primitives) (L : Ledger) (height : Nat) (ctx : Hash)

theorem foldlM_split {ε α σ : Type} {strict lenient : σ → α → Except ε σ} {proved : α → Prop}
    (split : ∀ state value next,
      strict state value = .ok next ↔ lenient state value = .ok next ∧ proved value)
    (values : List α) (start final : σ) :
    values.foldlM strict start = .ok final ↔
      values.foldlM lenient start = .ok final ∧ ∀ value ∈ values, proved value := by
  induction values generalizing start with
  | nil => simp
  | cons value values ih =>
    simp only [List.foldlM_cons, bind_ok, split, ih, List.forall_mem_cons]
    constructor
    · rintro ⟨middle, ⟨first, holds⟩, rest, later⟩
      exact ⟨⟨middle, first, rest⟩, holds, later⟩
    · rintro ⟨⟨middle, first, rest⟩, holds, later⟩
      exact ⟨middle, ⟨first, holds⟩, rest, later⟩

/-- The check of an input is its rules and its proofs. -/
theorem checkInput_split (seen : List Bytes) (input : Input) (next : List Bytes) :
    checkInput V L false height ctx seen input = .ok next ↔
      checkInput V L true height ctx seen input = .ok next ∧
        ∀ entry, L.utxoEntry input.outputRef = some entry →
          InputProofs V ctx input entry.commitment := by
  rw [checkInput_ok, checkInput_ok]
  constructor
  · rintro ⟨lengths, unseen, entry, found, mature, unlocked, proofs, rest⟩
    refine ⟨⟨lengths, unseen, entry, found, mature, unlocked, by simp, rest⟩, ?_⟩
    intro other same
    rw [found] at same
    obtain rfl := Option.some.inj same
    exact proofs rfl
  · rintro ⟨⟨lengths, unseen, entry, found, mature, unlocked, _, rest⟩, proofs⟩
    exact ⟨lengths, unseen, entry, found, mature, unlocked, fun _ => proofs entry found, rest⟩

/-- So is the check of an anonymous input. -/
theorem checkAnonInput_split (seen : List Bytes) (input : AnonInput) (next : List Bytes) :
    checkAnonInput V L false height ctx seen input = .ok next ↔
      checkAnonInput V L true height ctx seen input = .ok next ∧
        ∀ ring, L.poolMembers input.poolID.toNat height = some ring →
          AnonProofs V ctx input ring := by
  rw [checkAnonInput_ok, checkAnonInput_ok]
  constructor
  · rintro ⟨lengths, nullifier, canonical, unseen, untagged, ring, members, size, proofs, rest⟩
    refine ⟨⟨lengths, nullifier, canonical, unseen, untagged, ring, members, size, by simp, rest⟩,
      ?_⟩
    intro other same
    rw [members] at same
    obtain rfl := Option.some.inj same
    exact proofs rfl
  · rintro ⟨⟨lengths, nullifier, canonical, unseen, untagged, ring, members, size, _, rest⟩,
      proofs⟩
    exact ⟨lengths, nullifier, canonical, unseen, untagged, ring, members, size,
      fun _ => proofs ring members, rest⟩

/-- So is the check of a swap input. -/
theorem checkSwapInput_split (state : List Bytes × UInt64) (input : SwapIn)
    (next : List Bytes × UInt64) :
    checkSwapInput V L false height ctx state input = .ok next ↔
      checkSwapInput V L true height ctx state input = .ok next ∧
        ∀ sw, L.swaps[hexstr input.swapKey]? = some sw →
          ∀ sig, V.parseFullSig input.sig = some sig → SwapProofs V ctx input sw sig := by
  rw [checkSwapInput_ok, checkSwapInput_ok]
  constructor
  · rintro ⟨length, unseen, sw, found, sig, parsed, window, proofs, rest⟩
    refine ⟨⟨length, unseen, sw, found, sig, parsed, window, by simp, rest⟩, ?_⟩
    intro other same otherSig sameSig
    rw [found] at same
    rw [parsed] at sameSig
    obtain rfl := Option.some.inj same
    obtain rfl := Option.some.inj sameSig
    exact proofs rfl
  · rintro ⟨⟨length, unseen, sw, found, sig, parsed, window, _, rest⟩, proofs⟩
    exact ⟨length, unseen, sw, found, sig, parsed, window, fun _ => proofs sw found sig parsed,
      rest⟩

/-- So is the check of a vault claim. -/
theorem checkVaultInput_split (state : List Bytes × UInt64) (input : VaultIn)
    (next : List Bytes × UInt64) :
    checkVaultInput V L false height ctx state input = .ok next ↔
      checkVaultInput V L true height ctx state input = .ok next ∧
        ∀ v, L.vaults[hexstr input.vaultKey]? = some v →
          ∀ sig, V.parseFullSig input.sig = some sig →
            V.verifyFull v.ownerKey ctx sig = true := by
  rw [checkVaultInput_ok, checkVaultInput_ok]
  constructor
  · rintro ⟨length, unseen, v, found, mature, sig, parsed, proofs, rest⟩
    refine ⟨⟨length, unseen, v, found, mature, sig, parsed, by simp, rest⟩, ?_⟩
    intro other same otherSig sameSig
    rw [found] at same
    rw [parsed] at sameSig
    obtain rfl := Option.some.inj same
    obtain rfl := Option.some.inj sameSig
    exact proofs rfl
  · rintro ⟨⟨length, unseen, v, found, mature, sig, parsed, _, rest⟩, proofs⟩
    exact ⟨length, unseen, v, found, mature, sig, parsed, fun _ => proofs v found sig parsed,
      rest⟩

theorem checkSwapOutput_split (state : List Bytes × UInt64) (so : SwapOut)
    (next : List Bytes × UInt64) :
    checkSwapOutput V L false height state so = .ok next ↔
      checkSwapOutput V L true height state so = .ok next ∧ SwapKeysOk V so := by
  rw [checkSwapOutput_ok, checkSwapOutput_ok]
  simp only [true_implies, Bool.true_eq_false, false_implies]
  tauto

theorem checkOutput_split (seen : List Bytes) (o : Output) (result : Bytes × List Bytes) :
    checkOutput V L false seen o = .ok result ↔
      checkOutput V L true seen o = .ok result ∧
        V.verifyRangeBytes o.commitment o.rangeProof = true := by
  rw [checkOutput_ok, checkOutput_ok]
  simp only [true_implies, Bool.true_eq_false, false_implies]
  tauto

/-- So is the check of the outputs. -/
theorem checkOutputs_split (seen : List Bytes) (outs : List Output)
    (result : List Bytes × List Bytes) :
    checkOutputs V L false seen outs = .ok result ↔
      checkOutputs V L true seen outs = .ok result ∧
        ∀ o ∈ outs, V.verifyRangeBytes o.commitment o.rangeProof = true := by
  refine foldlM_split (fun state o next => ?_) outs _ _
  simp only [bind_ok, checkOutput_split, pure_ok]
  constructor
  · rintro ⟨value, ⟨rules, proved⟩, same⟩
    exact ⟨⟨value, rules, same⟩, proved⟩
  · rintro ⟨⟨value, rules, same⟩, proved⟩
    exact ⟨value, ⟨rules, proved⟩, same⟩

theorem checkZKInput_split (bind : Bytes) (state : List Bytes × UInt64) (input : ZKInput)
    (next : List Bytes × UInt64) :
    checkZKInput V L false bind state input = .ok next ↔
      checkZKInput V L true bind state input = .ok next ∧ ZKInputProof V bind input := by
  rw [checkZKInput_ok, checkZKInput_ok]
  simp only [true_implies, Bool.true_eq_false, false_implies]
  tauto

theorem checkZKOutput_split (bind : Bytes) (state : UInt64) (o : ZKOutput) (next : UInt64) :
    checkZKOutput V false bind state o = .ok next ↔
      checkZKOutput V true bind state o = .ok next ∧ ZKOutputProof V bind o := by
  rw [checkZKOutput_ok, checkZKOutput_ok]
  simp only [true_implies, Bool.true_eq_false, false_implies]
  tauto

theorem checkCZKSpend_split (bind : Bytes) (state : List Bytes × UInt64) (s : CZKSpend)
    (next : List Bytes × UInt64) :
    checkCZKSpend V L false bind state s = .ok next ↔
      checkCZKSpend V L true bind state s = .ok next ∧ CZKProof V bind s := by
  rw [checkCZKSpend_ok, checkCZKSpend_ok]
  simp only [true_implies, Bool.true_eq_false, false_implies]
  tauto

/-- **Rules and proofs of a transaction.** -/
theorem validateLegs_split (t : Transaction) (seen : Seen) (result : List Bytes × Seen) :
    validateLegs V L false t height seen = .ok result ↔
      validateLegs V L true t height seen = .ok result ∧ TxProofs V L height t := by
  have inputs := foldlM_split (checkInput_split V L height (t.coreHash V)) t.inputs
  have anonInputs := foldlM_split (checkAnonInput_split V L height (t.coreHash V)) t.anonInputs
  have swapInputs := foldlM_split (checkSwapInput_split V L height (t.coreHash V)) t.swapInputs
  have vaultInputs := foldlM_split (checkVaultInput_split V L height (t.coreHash V)) t.vaultInputs
  have swapOutputs := foldlM_split (checkSwapOutput_split V L height) t.swapOutputs
  have zkInputs := foldlM_split (checkZKInput_split V L (t.coreHash V)) t.zkInputs
  have zkOutputs := foldlM_split (checkZKOutput_split V (t.coreHash V)) t.zkOutputs
  have czkSpends := foldlM_split (checkCZKSpend_split V L (t.coreHash V)) t.czkSpends
  unfold validateLegs validateZKInputsLocked validateZKOutputsLocked validateCZKSpendsLocked
  simp only [bind_ok, reject_ok, pure_ok, exists_const, Prod.exists, addU64_ok, inputs, anonInputs,
    swapInputs, vaultInputs, swapOutputs, checkOutputs_split, zkInputs, zkOutputs, czkSpends,
    Bool.not_false, Bool.not_true, Bool.true_and, Bool.false_and, Bool.not_eq_true,
    Bool.not_eq_false']
  constructor
  · rintro ⟨spent₁, ⟨ins, inProofs⟩, spent₂, ⟨anons, anonProofs⟩, spent₃, in₁,
      ⟨swapIns, swapProofs⟩, spent₄, in₂, ⟨vaultIns, vaultProofs⟩, spent₅, out₁,
      ⟨swapOuts, keyProofs⟩, spent₆, out₂, vaultOuts, primes, prime, ⟨outs, rangeProofs⟩, spent₇,
      zkIn, ⟨zkInCount, zkIns, zkInProofs⟩, in₃, in₃Sum, zkOut, ⟨zkOutCount, zkOuts, zkOutProofs⟩,
      out₃, out₃Sum, spent₈, czkIn, ⟨czkCount, czks, czkProofs⟩, in₄, in₄Sum, conserved, done⟩
    refine ⟨⟨spent₁, ins, spent₂, anons, spent₃, in₁, swapIns, spent₄, in₂, vaultIns, spent₅, out₁,
      swapOuts, spent₆, out₂, vaultOuts, primes, prime, outs, spent₇, zkIn, ⟨zkInCount, zkIns⟩,
      in₃, in₃Sum, zkOut, ⟨zkOutCount, zkOuts⟩, out₃, out₃Sum, spent₈, czkIn, ⟨czkCount, czks⟩,
      in₄, in₄Sum, trivial, done⟩, ?_⟩
    refine ⟨inProofs, anonProofs, swapProofs, vaultProofs, keyProofs, rangeProofs, zkInProofs,
      zkOutProofs, czkProofs, ?_⟩
    intro publicIn publicOut sameIn sameOut
    rw [← publicIn_run swapIns vaultIns zkIns in₃Sum czks in₄Sum, UInt64.toNat_inj] at sameIn
    rw [← publicOut_run swapOuts vaultOuts zkOuts out₃Sum, UInt64.toNat_inj] at sameOut
    rw [sameIn, sameOut]
    exact conserved
  · rintro ⟨⟨spent₁, ins, spent₂, anons, spent₃, in₁, swapIns, spent₄, in₂, vaultIns, spent₅, out₁,
      swapOuts, spent₆, out₂, vaultOuts, primes, prime, outs, spent₇, zkIn, ⟨zkInCount, zkIns⟩,
      in₃, in₃Sum, zkOut, ⟨zkOutCount, zkOuts⟩, out₃, out₃Sum, spent₈, czkIn, ⟨czkCount, czks⟩,
      in₄, in₄Sum, _, done⟩, proofs⟩
    exact ⟨spent₁, ⟨ins, proofs.inputs⟩, spent₂, ⟨anons, proofs.anonInputs⟩, spent₃, in₁,
      ⟨swapIns, proofs.swapInputs⟩, spent₄, in₂, ⟨vaultIns, proofs.vaultInputs⟩, spent₅, out₁,
      ⟨swapOuts, proofs.swapOutputs⟩, spent₆, out₂, vaultOuts, primes, prime,
      ⟨outs, proofs.outputs⟩, spent₇, zkIn, ⟨zkInCount, zkIns, proofs.zkInputs⟩, in₃, in₃Sum, zkOut,
      ⟨zkOutCount, zkOuts, proofs.zkOutputs⟩, out₃, out₃Sum, spent₈, czkIn,
      ⟨czkCount, czks, proofs.czkSpends⟩, in₄, in₄Sum,
      proofs.conservation in₄ out₃ (publicIn_run swapIns vaultIns zkIns in₃Sum czks in₄Sum)
        (publicOut_run swapOuts vaultOuts zkOuts out₃Sum), done⟩

theorem validateTx_split (t : Transaction) (seen : Seen) (result : List Bytes × Seen) :
    validateTxLocked V L false t height seen = .ok result ↔
      validateTxLocked V L true t height seen = .ok result ∧
        (hasPQ t = false → TxProofs V L height t) := by
  unfold validateTxLocked
  cases pq : hasPQ t with
  | true => simp
  | false =>
    simp only [Bool.false_eq_true, ↓reduceIte, bind_ok, reject_ok, exists_const,
      validateLegs_split, true_implies]
    tauto

theorem tallyTx_split (skip : Transaction → Bool) (b : Block) (tally : TxTally) (t : Transaction)
    (next : TxTally) :
    tallyTx V skip L b tally t = .ok next ↔
      tallyTx V (fun _ => true) L b tally t = .ok next ∧
        (skip t = false → hasPQ t = false → TxProofs V L b.header.height t) := by
  unfold tallyTx
  cases skipped : skip t with
  | true => simp
  | false =>
    simp only [bind_ok, mapError_ok, validateTx_split, true_implies]
    constructor
    · rintro ⟨result, ⟨rules, proofs⟩, rest⟩
      exact ⟨⟨result, rules, rest⟩, proofs⟩
    · rintro ⟨⟨result, rules, rest⟩, proofs⟩
      exact ⟨result, ⟨rules, proofs⟩, rest⟩

theorem validateBlock_parts (skip : Transaction → Bool) (now : Int) (b : Block) :
    validateBlockLocked V skip now L b = (do
      let (cb, start) ← validateFront V L now b
      let tally ← b.txs.tail.foldlM (tallyTx V skip L b) start
      validateBack V L b cb tally) := by
  simp only [validateBlockLocked, validateFront, validateBack, bind_assoc, pure_bind]

/-- **Rules and proofs of a block.** -/
theorem validateBlock_split (skip : Transaction → Bool) (now : Int) (b : Block) :
    validateBlockLocked V skip now L b = .ok () ↔
      validateBlockLocked V (fun _ => true) now L b = .ok () ∧
        ∀ t ∈ b.txs.tail, skip t = false → hasPQ t = false →
          TxProofs V L b.header.height t := by
  have txs := foldlM_split (tallyTx_split V L skip b) b.txs.tail
  simp only [validateBlock_parts, bind_ok, Prod.exists, txs]
  constructor
  · rintro ⟨cb, start, front, tally, ⟨rules, proofs⟩, back⟩
    exact ⟨⟨cb, start, front, tally, rules, back⟩, proofs⟩
  · rintro ⟨⟨cb, start, front, tally, rules, back⟩, proofs⟩
    exact ⟨cb, start, front, tally, ⟨rules, proofs⟩, back⟩

end Split

/-! ## The verdict with a cache -/

section Verdict

variable {V : Primitives} {L : Ledger}

theorem lookup_markProofVerified {cache : ProofCache} {id id' : Hash} {entry : Verification}
    (other : id' ≠ id) : (markProofVerified cache id entry)[id']? = cache[id']? := by
  unfold markProofVerified
  split
  · rw [OrdMap.lookup_insert, if_neg other.symm]
  · rfl

theorem lookup_cacheAfterTx {cache : ProofCache} {t : Transaction} {height : Nat} {seen : Seen}
    {id : Hash} (other : id ≠ t.hash V) :
    (cacheAfterTx V L cache t height seen)[id]? = cache[id]? := by
  unfold cacheAfterTx
  dsimp only
  split
  · exact lookup_markProofVerified other
  · rfl

theorem proofVerified_iff {cache : ProofCache} {id : Hash} :
    proofVerified cache id = true ↔ ∃ entry, cache[id]? = some entry := by
  rw [proofVerified, Std.ExtTreeMap.contains_eq_isSome_getElem?, Option.isSome_iff_exists]

theorem proofVerified_congr {first second : ProofCache} {id : Hash}
    (same : first[id]? = second[id]?) : proofVerified first id = proofVerified second id := by
  rw [Bool.eq_iff_iff, proofVerified_iff, proofVerified_iff, same]

theorem tallyTxs_verdict (b : Block) {txs : List Transaction} (cache : ProofCache)
    (tally : TxTally) (distinct : (txs.map fun t => t.hash V).Nodup) :
    (tallyTxs V L b cache tally txs).1 =
      txs.foldlM (tallyTx V (fun t => proofVerified cache (t.hash V)) L b) tally := by
  induction txs generalizing cache tally with
  | nil => rfl
  | cons t txs ih =>
    rw [List.map_cons, List.nodup_cons] at distinct
    rw [tallyTxs, List.foldlM_cons]
    cases tallyTx V (fun t => proofVerified cache (t.hash V)) L b tally t with
    | error error => rfl
    | ok next =>
      change (tallyTxs V L b _ next txs).1 = txs.foldlM _ next
      rw [ih _ _ distinct.2]
      refine foldlM_agree (fun state other member => ?_) next
      have apart : other.hash V ≠ t.hash V := fun same =>
        distinct.1 (same ▸ List.mem_map_of_mem (f := fun t => t.hash V) member)
      unfold tallyTx
      dsimp only
      rw [proofVerified_congr (lookup_cacheAfterTx apart)]

theorem checkTxList_distinct {b : Block} {cb : Transaction}
    (accepted : checkTxList V b = .ok cb) : (b.txs.map fun t => t.hash V).Nodup := by
  unfold checkTxList at accepted
  simp only [bind_ok, reject_ok, orReject_ok, pure_ok, exists_const] at accepted
  obtain ⟨_, _, _, final, run, _⟩ := accepted
  have fresh := foldlM_fresh (fun seen : List Hash => seen)
    (fun entry : Transaction × Nat => [entry.1.hash V]) (fun seen entry next step => by
      obtain ⟨t, i⟩ := entry
      simp only [bind_ok, reject_ok, pure_ok, exists_const] at step
      obtain ⟨_, unseen, rfl⟩ := step
      exact .one unseen (by simp) (fun key member => by simp [member])) run
  have ids : (b.txs.zipIdx.flatMap fun entry => [entry.1.hash V]) =
      b.txs.map fun t => t.hash V := by
    rw [← List.map_eq_flatMap]
    conv_rhs => rw [← List.zipIdx_map_fst 0 b.txs, List.map_map]
    rfl
  rw [← ids]
  exact fresh.distinct

theorem validateFront_distinct {now : Int} {b : Block} {result : Transaction × TxTally}
    (accepted : validateFront V L now b = .ok result) :
    (b.txs.tail.map fun t => t.hash V).Nodup := by
  unfold validateFront at accepted
  simp only [bind_ok, Prod.exists] at accepted
  obtain ⟨_, _, _, _, cb, listed, _⟩ := accepted
  exact (checkTxList_distinct listed).sublist ((List.tail_sublist _).map _)

theorem validateBlockCached_verdict (parallel : Bool) (now : Int) (cache : ProofCache)
    (b : Block) :
    (validateBlockCached V L parallel now cache b).1 =
      validateBlockLocked V (fun t => proofVerified (prewarmProofCacheLocked V L parallel b.txs.tail
        b.header.height cache) (t.hash V)) now L b := by
  rw [validateBlock_parts, validateBlockCached]
  cases front : validateFront V L now b with
  | error error => rfl
  | ok result =>
    obtain ⟨cb, start⟩ := result
    have verdict := tallyTxs_verdict b (L := L) (prewarmProofCacheLocked V L parallel b.txs.tail
      b.header.height cache) start (validateFront_distinct front)
    change (match tallyTxs V L b _ start b.txs.tail with
      | (.error error, cache) => ((.error error : Check Unit), cache)
      | (.ok tally, cache) => (validateBack V L b cb tally, cache)).1 =
        ((b.txs.tail.foldlM _ start) >>= fun tally => validateBack V L b cb tally)
    rw [← verdict]
    rcases tallyTxs V L b _ start b.txs.tail with ⟨error | tally, after⟩
    · rfl
    · rfl

/-! ## What the cache holds -/

/-- The recorded transaction has the id, and its proofs were verified. -/
def Verification.Genuine (V : Primitives) (id : Hash) (entry : Verification) : Prop :=
  entry.tx.hash V = id ∧
    (hasPQ entry.tx = false → TxProofs V entry.ledger entry.height entry.tx)

/-- Every entry is an entry of the old cache, or was verified just now. -/
def CacheGrows (V : Primitives) (L : Ledger) (height : Nat) (txs : List Transaction)
    (old new : ProofCache) : Prop :=
  ∀ id entry, new[id]? = some entry → old[id]? = some entry ∨
    ∃ t ∈ txs, entry = ⟨t, L, height⟩ ∧ t.hash V = id ∧
      (hasPQ t = false → TxProofs V L height t)

namespace CacheGrows

variable {height : Nat} {txs : List Transaction} {old middle new : ProofCache}

theorem refl : CacheGrows V L height txs old old := fun _ _ found => Or.inl found

theorem trans (first : CacheGrows V L height txs old middle)
    (second : CacheGrows V L height txs middle new) : CacheGrows V L height txs old new := by
  intro id entry found
  rcases second id entry found with earlier | now
  · exact first id entry earlier
  · exact Or.inr now

theorem mark {t : Transaction} (member : t ∈ txs)
    (proofs : hasPQ t = false → TxProofs V L height t) :
    CacheGrows V L height txs old (markProofVerified old (t.hash V) ⟨t, L, height⟩) := by
  intro id entry found
  by_cases same : id = t.hash V
  · subst same
    unfold markProofVerified at found
    split at found
    · rw [OrdMap.lookup_insert, if_pos rfl] at found
      exact Or.inr ⟨t, member, (Option.some.inj found).symm, rfl, proofs⟩
    · exact Or.inl found
  · rw [lookup_markProofVerified same] at found
    exact Or.inl found

/-- The cache after a transaction. -/
theorem afterTx {t : Transaction} (member : t ∈ txs) (cache : ProofCache) (seen : Seen) :
    CacheGrows V L height txs cache (cacheAfterTx V L cache t height seen) := by
  unfold cacheAfterTx
  dsimp only
  split
  · rename_i verified
    simp only [Bool.and_eq_true, Bool.not_eq_true'] at verified
    obtain ⟨⟨accepted, uncached⟩, _⟩ := verified
    rw [uncached, isOk_iff] at accepted
    obtain ⟨result, run⟩ := accepted
    exact mark member ((validateTx_split V L height t seen result).mp run).2
  · exact refl

/-- The cache after the proofs were checked ahead. -/
theorem prewarm (parallel : Bool) (cache : ProofCache) :
    CacheGrows V L height txs cache (prewarmProofCacheLocked V L parallel txs height cache) := by
  have one : ∀ (cache : ProofCache), ∀ t ∈ txs,
      CacheGrows V L height txs cache (prewarmTx V L height cache t) := by
    intro cache t member
    unfold prewarmTx
    dsimp only
    split
    · exact refl
    · rename_i uncached
      simp only [Bool.or_eq_true, not_or, Bool.not_eq_true] at uncached
      split
      · rename_i accepted
        rw [uncached.2, isOk_iff] at accepted
        obtain ⟨result, run⟩ := accepted
        have proofs := ((validateTx_split V L height t _ result).mp run).2
        exact (afterTx member cache _).trans (mark member proofs)
      · exact refl
  have all : ∀ (part : List Transaction) (cache : ProofCache), part ⊆ txs →
      CacheGrows V L height txs cache (part.foldl (prewarmTx V L height) cache) := by
    intro part
    induction part with
    | nil => exact fun cache _ => refl
    | cons t part ih =>
      intro cache subset
      rw [List.foldl_cons]
      exact (one cache t (subset (by simp))).trans
        (ih _ fun other member => subset (List.mem_cons_of_mem _ member))
  unfold prewarmProofCacheLocked
  split
  · exact refl
  · exact all txs cache fun _ member => member

/-- The cache after a part of a block. -/
theorem tally {b : Block} (part : List Transaction) (cache : ProofCache) (tally : TxTally)
    (subset : part ⊆ txs) :
    CacheGrows V L b.header.height txs cache (tallyTxs V L b cache tally part).2 := by
  induction part generalizing cache tally with
  | nil => exact refl
  | cons t part ih =>
    have first : CacheGrows V L b.header.height txs cache
        (cacheAfterTx V L cache t b.header.height tally.seen) :=
      afterTx (subset List.mem_cons_self) cache tally.seen
    rw [tallyTxs]
    split
    · exact first
    · exact first.trans (ih _ _ fun other member => subset (List.mem_cons_of_mem _ member))

/-- The cache after a block. -/
theorem block (parallel : Bool) (now : Int) (cache : ProofCache) (b : Block) :
    CacheGrows V L b.header.height b.txs.tail cache
      (validateBlockCached V L parallel now cache b).2 := by
  unfold validateBlockCached
  split
  · exact refl
  · rename_i cb start _
    have warm : CacheGrows V L b.header.height b.txs.tail cache
        (prewarmProofCacheLocked V L parallel b.txs.tail b.header.height cache) :=
      prewarm parallel cache
    have pass := tally (V := V) (L := L) (b := b) b.txs.tail
      (prewarmProofCacheLocked V L parallel b.txs.tail b.header.height cache) start
      fun _ member => member
    dsimp only
    split
    · rename_i run
      rw [run] at pass
      exact warm.trans pass
    · rename_i run
      rw [run] at pass
      exact warm.trans pass

end CacheGrows

/-- Validation takes no id out of the cache. -/
def CacheKeeps (old new : ProofCache) : Prop :=
  ∀ id, proofVerified old id = true → proofVerified new id = true

namespace CacheKeeps

variable {height : Nat} {old middle new : ProofCache}

theorem refl : CacheKeeps old old := fun _ known => known

theorem trans (first : CacheKeeps old middle) (second : CacheKeeps middle new) :
    CacheKeeps old new :=
  fun id known => second id (first id known)

/-- A new entry keeps the old ones. -/
theorem mark (id : Hash) (entry : Verification) :
    CacheKeeps old (markProofVerified old id entry) := by
  intro other known
  rw [proofVerified_iff] at known ⊢
  by_cases same : other = id
  · unfold markProofVerified
    split
    · rw [OrdMap.lookup_insert, if_pos same.symm]
      exact ⟨entry, rfl⟩
    · exact known
  · rw [lookup_markProofVerified same]
    exact known

theorem afterTx (t : Transaction) (seen : Seen) :
    CacheKeeps old (cacheAfterTx V L old t height seen) := by
  unfold cacheAfterTx
  dsimp only
  split
  · exact mark _ _
  · exact refl

/-- So do proofs that were checked ahead. -/
theorem prewarm (parallel : Bool) (txs : List Transaction) :
    CacheKeeps old (prewarmProofCacheLocked V L parallel txs height old) := by
  have one : ∀ (cache : ProofCache) (t : Transaction),
      CacheKeeps cache (prewarmTx V L height cache t) := by
    intro cache t
    unfold prewarmTx
    dsimp only
    split
    · exact refl
    · split
      · exact (afterTx t _).trans (mark _ _)
      · exact refl
  have all : ∀ (part : List Transaction) (cache : ProofCache),
      CacheKeeps cache (part.foldl (prewarmTx V L height) cache) := by
    intro part
    induction part with
    | nil => exact fun cache => refl
    | cons t part ih => exact fun cache => (one cache t).trans (ih _)
  unfold prewarmProofCacheLocked
  split
  · exact refl
  · exact all txs old

/-- So does a part of a block. -/
theorem tally (b : Block) (part : List Transaction) (tally : TxTally) :
    CacheKeeps old (tallyTxs V L b old tally part).2 := by
  induction part generalizing old tally with
  | nil => exact refl
  | cons t part ih =>
    rw [tallyTxs]
    split
    · exact afterTx t tally.seen
    · exact (afterTx t tally.seen).trans (ih _)

/-- So does a block. -/
theorem block (parallel : Bool) (now : Int) (b : Block) :
    CacheKeeps old (validateBlockCached V L parallel now old b).2 := by
  unfold validateBlockCached
  split
  · exact refl
  · rename_i cb start _
    have pass := (@prewarm V L b.header.height old parallel b.txs.tail).trans
      (tally (V := V) (L := L) b b.txs.tail start)
    dsimp only
    split
    · rename_i run
      rw [run] at pass
      exact pass
    · rename_i run
      rw [run] at pass
      exact pass

end CacheKeeps

end Verdict

end Obscura
