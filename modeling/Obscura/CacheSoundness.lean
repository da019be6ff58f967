import Obscura.ProofCache
import Obscura.Testnet

/-! # When a cache hit is sound

The proofs of a transaction are checked against records of the state: the coins
and rings it spends, the swap and vault contracts it closes. A cached verification
stands for the proofs on another state exactly through these records
(`TxProofs.transfer`). Keys can be registered again with other contents, on another
branch or after the contract was closed, so the cache can accept a block that a
node without it rejects.
-/

namespace Obscura

open Wire Tx Checked

/-- The records that a transaction refers to and that exist on the new state read on
it as they did on the old one. -/
structure SameRecords (old : Ledger) (oldHeight : Nat) (new : Ledger) (newHeight : Nat)
    (t : Transaction) : Prop where
  inputs : ∀ input ∈ t.inputs, ∀ entry, new.utxoEntry input.outputRef = some entry →
    ∃ past, old.utxoEntry input.outputRef = some past ∧ past.commitment = entry.commitment
  anonInputs : ∀ input ∈ t.anonInputs, ∀ ring,
    new.poolMembers input.poolID.toNat newHeight = some ring →
    ∃ past, old.poolMembers input.poolID.toNat oldHeight = some past ∧
      past.map CoinInfo.key = ring.map CoinInfo.key ∧
      past.map CoinInfo.commitment = ring.map CoinInfo.commitment
  swapInputs : ∀ input ∈ t.swapInputs, ∀ sw, new.swaps[hexstr input.swapKey]? = some sw →
    old.swaps[hexstr input.swapKey]? = some sw
  vaultInputs : ∀ input ∈ t.vaultInputs, ∀ v, new.vaults[hexstr input.vaultKey]? = some v →
    ∃ past, old.vaults[hexstr input.vaultKey]? = some past ∧ past.ownerKey = v.ownerKey ∧
      past.amount = v.amount

section Transfer

variable {V : Primitives} {old new : Ledger} {oldHeight newHeight : Nat} {t : Transaction}

theorem SameRecords.refl (L : Ledger) (height : Nat) (t : Transaction) :
    SameRecords L height L height t where
  inputs := fun _ _ entry found => ⟨entry, found, rfl⟩
  anonInputs := fun _ _ ring found => ⟨ring, found, rfl, rfl⟩
  swapInputs := fun _ _ _ found => found
  vaultInputs := fun _ _ v found => ⟨v, found, rfl, rfl⟩

theorem SameRecords.publicIn (same : SameRecords old oldHeight new newHeight t)
    (swaps : ∀ input ∈ t.swapInputs, ∃ sw, new.swaps[hexstr input.swapKey]? = some sw)
    (vaults : ∀ input ∈ t.vaultInputs, ∃ v, new.vaults[hexstr input.vaultKey]? = some v) :
    publicInOf new t = publicInOf old t := by
  have swapAmounts : t.swapInputs.map (swapAmount new) = t.swapInputs.map (swapAmount old) := by
    refine List.map_congr_left fun input member => ?_
    obtain ⟨sw, found⟩ := swaps input member
    rw [swapAmount, swapAmount, found, same.swapInputs input member sw found]
  have principals : (t.vaultInputs.map fun input => vaultPrincipal new input + input.yield.toNat) =
      t.vaultInputs.map fun input => vaultPrincipal old input + input.yield.toNat := by
    refine List.map_congr_left fun input member => ?_
    obtain ⟨v, found⟩ := vaults input member
    obtain ⟨past, foundPast, _, amount⟩ := same.vaultInputs input member v found
    rw [vaultPrincipal, vaultPrincipal, found, foundPast, Option.elim_some, Option.elim_some,
      amount]
  rw [publicInOf, publicInOf, swapAmounts, principals]

/-- **Proofs carry over** to a state with the same records. -/
theorem TxProofs.transfer (proofs : TxProofs V old oldHeight t)
    (same : SameRecords old oldHeight new newHeight t)
    (swaps : ∀ input ∈ t.swapInputs, ∃ sw, new.swaps[hexstr input.swapKey]? = some sw)
    (vaults : ∀ input ∈ t.vaultInputs, ∃ v, new.vaults[hexstr input.vaultKey]? = some v) :
    TxProofs V new newHeight t where
  inputs := by
    intro input member entry found
    obtain ⟨past, foundPast, commitment⟩ := same.inputs input member entry found
    rw [← commitment]
    exact proofs.inputs input member past foundPast
  anonInputs := by
    intro input member ring found
    obtain ⟨past, foundPast, keys, commitments⟩ := same.anonInputs input member ring found
    have verified := proofs.anonInputs input member past foundPast
    unfold AnonProofs at verified ⊢
    rwa [keys, commitments] at verified
  swapInputs := by
    intro input member sw found
    exact proofs.swapInputs input member sw (same.swapInputs input member sw found)
  vaultInputs := by
    intro input member v found sig parsed
    obtain ⟨past, foundPast, owner, _⟩ := same.vaultInputs input member v found
    rw [← owner]
    exact proofs.vaultInputs input member past foundPast sig parsed
  swapOutputs := proofs.swapOutputs
  outputs := proofs.outputs
  zkInputs := proofs.zkInputs
  zkOutputs := proofs.zkOutputs
  czkSpends := proofs.czkSpends
  conservation := by
    intro publicIn publicOut inSum outSum
    rw [same.publicIn swaps vaults] at inSum
    exact proofs.conservation publicIn publicOut inSum outSum

end Transfer

/-! ## The cache of a node -/

/-- The chains and cache contents of a node that validates transactions and blocks,
connects the blocks it accepts and goes back to a fork point. -/
inductive CacheRun (V : Primitives) : List Block → ProofCache → Prop
  | start : CacheRun V [] ∅
  | standalone {chain : List Block} {cache : ProofCache} (t : Transaction) :
      CacheRun V chain cache →
      CacheRun V chain (validateStandaloneTx V (replay V chain) cache t).2
  | candidate {chain : List Block} {cache : ProofCache} (parallel : Bool) (now : Int) (b : Block) :
      CacheRun V chain cache →
      CacheRun V chain (validateBlockCached V (replay V chain) parallel now cache b).2
  | connect {chain : List Block} {cache : ProofCache} {parallel : Bool} {now : Int} {b : Block} :
      CacheRun V chain cache →
      (validateBlockCached V (replay V chain) parallel now cache b).1 = .ok () →
      CacheRun V (b :: chain) (validateBlockCached V (replay V chain) parallel now cache b).2
  | rewind {b : Block} {chain : List Block} {cache : ProofCache} :
      CacheRun V (b :: chain) cache → CacheRun V chain cache
  | clear {chain : List Block} {cache : ProofCache} : CacheRun V chain cache → CacheRun V chain ∅

section Run

variable {V : Primitives}

theorem CacheRun.chained {chain : List Block} {cache : ProofCache}
    (run : CacheRun V chain cache) : Chained V (Admitted V) chain := by
  induction run with
  | start => exact trivial
  | standalone t _ ih => exact ih
  | candidate parallel now b _ ih => exact ih
  | connect _ accepted ih =>
    rw [validateBlockCached_verdict] at accepted
    obtain ⟨_, _, _, _, _, applied, _⟩ := ih.regular.step accepted
    exact ⟨ih, ⟨_, _, accepted⟩, by rw [applied]⟩
  | rewind _ ih => exact ih.1
  | clear _ ih => exact ih

theorem CacheRun.genuine {chain : List Block} {cache : ProofCache} (run : CacheRun V chain cache)
    {id : Hash} {entry : Verification} (found : cache[id]? = some entry) :
    entry.Genuine V id := by
  have grown : ∀ {L height txs} {old new : ProofCache}, CacheGrows V L height txs old new →
      (∀ (id : Hash) (entry : Verification), old[id]? = some entry → entry.Genuine V id) →
      ∀ (id : Hash) (entry : Verification), new[id]? = some entry → entry.Genuine V id := by
    intro L height txs old new grows holds id entry found
    rcases grows id entry found with earlier | ⟨t, _, rfl, same, proofs⟩
    · exact holds id entry earlier
    · exact ⟨same, proofs⟩
  suffices all : ∀ (id : Hash) (entry : Verification), cache[id]? = some entry →
      entry.Genuine V id from all id entry found
  clear found
  induction run with
  | start => simp
  | @standalone chain cache t _ ih =>
    unfold validateStandaloneTx
    split
    · exact ih
    · split
      · exact ih
      · exact grown (CacheGrows.afterTx (List.mem_singleton_self t) cache _) ih
  | candidate parallel now b _ ih => exact grown (CacheGrows.block parallel now _ b) ih
  | connect _ _ ih => exact grown (CacheGrows.block _ _ _ _) ih
  | rewind _ ih => exact ih
  | clear _ _ => simp

/-- What the cache holds for a block was verified for the very transactions of the
block, on records that still read the same. -/
def CacheCurrent (V : Primitives) (cache : ProofCache) (L : Ledger) (b : Block) : Prop :=
  ∀ t ∈ b.txs.tail, ∀ entry, cache[t.hash V]? = some entry →
    entry.tx = t ∧ SameRecords entry.ledger entry.height L b.header.height t

section Verdict

variable {chain : List Block} {cache : ProofCache} {now : Int} {b : Block}

/-- A transaction of a block that passes the rules, and whose id is in the cache
after the parallel pass, passes its proofs. -/
theorem CacheRun.proofs_of_skipped (run : CacheRun V chain cache)
    (current : CacheCurrent V cache (replay V chain) b) (parallel : Bool)
    (rules : validateBlockLocked V (fun _ => true) now (replay V chain) b = .ok ())
    {t : Transaction} (member : t ∈ b.txs.tail)
    (skipped : proofVerified (prewarmProofCacheLocked V (replay V chain) parallel b.txs.tail
      b.header.height cache) (t.hash V) = true) :
    TxProofs V (replay V chain) b.header.height t := by
  obtain ⟨cb, txs, block⟩ := validateBlock_accepted run.chained.regular.noPQOutput rules
  have classical : ∀ other ∈ b.txs.tail, hasPQ other = false := by
    intro other listed
    rw [block.split, List.tail_cons] at listed
    obtain ⟨_, noInputs, noOutputs⟩ := block.normal other listed
    simp [hasPQ, noInputs, noOutputs]
  obtain ⟨entry, found⟩ := proofVerified_iff.mp skipped
  have warm : CacheGrows V (replay V chain) b.header.height b.txs.tail cache
      (prewarmProofCacheLocked V (replay V chain) parallel b.txs.tail b.header.height cache) :=
    CacheGrows.prewarm parallel cache
  rcases warm _ _ found with earlier | ⟨other, listed, _, same, proofs⟩
  · obtain ⟨rfl, records⟩ := current t member entry earlier
    have proofs := (run.genuine earlier).2 (classical _ member)
    rw [block.split, List.tail_cons] at member
    obtain ⟨_, _, _, legs⟩ := block.legs _ member
    refine proofs.transfer records (fun input inputMember => ?_) legs.vaultInputs
    obtain ⟨sw, found, _⟩ := legs.swapInputs input inputMember
    exact ⟨sw, found⟩
  · -- The ids of a block's transactions are distinct, so the other one is this one.
    rw [validateBlock_parts] at rules
    obtain ⟨_, front, _⟩ := bind_ok.mp rules
    have distinct := validateFront_distinct front
    obtain rfl : other = t :=
      List.inj_on_of_nodup_map distinct listed member same
    exact proofs (classical _ member)

/-- **Soundness of the cache.** Along every run of a node, a block is accepted with
the cache if and only if it is accepted without it, as long as what the cache holds
for a block that passes the rules besides the proofs is current. -/
theorem verdict_of_cacheCurrent (run : CacheRun V chain cache) (parallel : Bool)
    (current : validateBlockLocked V (fun _ => true) now (replay V chain) b = .ok () →
      CacheCurrent V cache (replay V chain) b) :
    (validateBlockCached V (replay V chain) parallel now cache b).1 = .ok () ↔
      (validateBlockCached V (replay V chain) parallel now ∅ b).1 = .ok () := by
  have blank : validateBlockLocked V (fun _ => true) now (replay V chain) b = .ok () →
      CacheCurrent V ∅ (replay V chain) b := by
    intro _ t _ entry found
    simp at found
  have transfer : ∀ {first second : ProofCache}, CacheRun V chain first →
      (validateBlockLocked V (fun _ => true) now (replay V chain) b = .ok () →
        CacheCurrent V first (replay V chain) b) →
      (validateBlockCached V (replay V chain) parallel now first b).1 = .ok () →
      (validateBlockCached V (replay V chain) parallel now second b).1 = .ok () := by
    intro first second run current accepted
    rw [validateBlockCached_verdict, validateBlock_split] at accepted ⊢
    obtain ⟨rules, proofs⟩ := accepted
    refine ⟨rules, fun t member _ classical => ?_⟩
    cases skipped : proofVerified (prewarmProofCacheLocked V (replay V chain) parallel b.txs.tail
        b.header.height first) (t.hash V) with
    | true => exact run.proofs_of_skipped (current rules) parallel rules member skipped
    | false => exact proofs t member skipped classical
  exact ⟨transfer run current, transfer run.clear blank⟩

end Verdict

end Run

/-! ## A stale verification

A miner mints a coin under one key with different blindings on two branches. A spend
of it that was verified on the first branch is accepted on the second one, where its
value-equality proof does not verify.
-/

section Stale

open Testnet

theorem validateBlockCached_noTxs {V : Primitives} {L : Ledger} {b : Block}
    (empty : b.txs.tail = []) (parallel : Bool) (now : Int) (cache : ProofCache) :
    (validateBlockCached V L parallel now cache b).2 = cache := by
  unfold validateBlockCached
  rw [empty]
  have cold : prewarmProofCacheLocked V L parallel [] b.header.height cache = cache := by
    simp [prewarmProofCacheLocked]
  rw [cold]
  cases validateFront V L now b with
  | error error => rfl
  | ok result => rfl

theorem validateBlockCached_of_verified {V : Primitives} {L : Ledger} {b : Block} {now : Int}
    (verified : validateBlockLocked V (fun _ => false) now L b = .ok ()) (parallel : Bool)
    (cache : ProofCache) : (validateBlockCached V L parallel now cache b).1 = .ok () := by
  obtain ⟨rules, proofs⟩ := (validateBlock_split _ _ _ _ _).mp verified
  rw [validateBlockCached_verdict, validateBlock_split]
  exact ⟨rules, fun t member _ => proofs t member rfl⟩

theorem CacheRun.mined {hash : Bytes → Hash} (width : ∀ bytes, (hash bytes).length = 32)
    {cache : ProofCache} (run : CacheRun (primitives hash) [] cache) (nonces : List Nat)
    (small : nonces.length < 2 ^ 64) :
    CacheRun (primitives hash) (mined hash nonces) cache := by
  induction nonces with
  | nil => exact run
  | cons nonce nonces ih =>
    rw [List.length_cons] at small
    have idle := idle_mined width nonces (by omega)
    obtain ⟨now, verified⟩ := mine_verified idle width (by rw [length_mined]; exact small) nonce
    have empty : (mine hash nonce (Testnet.mined hash nonces)).txs.tail = [] := rfl
    have next := CacheRun.connect (ih (by omega))
      (validateBlockCached_of_verified verified false cache)
    rwa [validateBlockCached_noTxs empty] at next

theorem Chained.cacheRun {V : Primitives} {chain : List Block}
    (chained : Chained V (Verified V) chain) : CacheRun V chain ∅ := by
  induction chain with
  | nil => exact CacheRun.start
  | cons b older ih =>
    obtain ⟨below, ⟨now, verified⟩, _⟩ := chained
    exact (CacheRun.connect (ih below) (validateBlockCached_of_verified verified false ∅)).clear

theorem CacheRun.toGenesis {V : Primitives} {chain : List Block} {cache : ProofCache}
    (run : CacheRun V chain cache) : CacheRun V [] cache := by
  induction chain with
  | nil => exact run
  | cons b chain ih => exact ih run.rewind

/-- Three words of the input as a hash of the right width. -/
def sample (bytes : Bytes) : Hash :=
  (List.replicate 8 0 ++ (bytes.drop 2).take 8 ++ (bytes.drop 58).take 8 ++
    (bytes.drop 10).take 8 ++ List.replicate 32 0).take 32

theorem sample_length (bytes : Bytes) : (sample bytes).length = 32 := by
  simp only [sample, List.length_take, List.length_append, List.length_replicate,
    List.length_drop]
  omega

/-- The branch on which the coin of height 1 is spent, and the one that replaces it. -/
def firstBranch : List Block := mined sample (List.replicate 60 0)

/-- A branch that is longer by one block and mints with another blinding. -/
def secondBranch : List Block := mined sample (List.replicate 61 1)

/-- The commitment of the coin of height 1 on the first branch. -/
def firstCommitment : Bytes :=
  wU64 (reward (genesisLedger (primitives sample))) ++ bigEndian 24 0

/-- The spend before its proofs are made. -/
def unsignedSpend : Transaction where
  inputs := [{
    outputRef := payoutKey 1
    pseudoCommitment := firstCommitment
    keyImage := payoutKey 1 }]
  outputs := [{
    oneTimeKey := payoutKey 1_000
    txPubKey := zeroHash
    commitment := wU64 (reward (genesisLedger (primitives sample)) - 1_000_000) ++ bigEndian 24 0 }]
  fee := 1_000_000

/-- A spend of that coin, with proofs for the first branch. -/
def spend : Transaction :=
  let ctx := unsignedSpend.coreHash (primitives sample)
  { unsignedSpend with
    inputs := unsignedSpend.inputs.map fun input =>
      { input with
        ownershipProof := input.outputRef ++ ctx
        equalityProof := firstCommitment ++ ctx } }

/-- The next block of a branch, with the spend. -/
def carrying (nonce : Nat) (branch : List Block) : Block :=
  let L := replay (primitives sample) branch
  let empty := mine sample nonce branch
  let txs := [payout L.headers.length nonce (reward L + spend.fee), spend]
  { empty with
    header := { empty.header with
      merkleRoot := merkleRoot (primitives sample) txs
      numTxs := 2
      accSize := L.acc.size + 2
      nullRoot := L.nullAcc.rootAfter (primitives sample) (blockTagsFromTxs (primitives sample) txs) }
    txs }

/-- The block that carries the spend on the second branch. -/
def staleBlock : Block := carrying 1 secondBranch

set_option maxRecDepth 10000 in
theorem spend_verified :
    (validateTxLocked (primitives sample) (replay (primitives sample) firstBranch) false spend 61
      ⟨[], []⟩).isOk = true := by
  decide

set_option maxRecDepth 10000 in
theorem staleBlock_rules :
    validateBlockLocked (primitives sample) (fun _ => true) (genesisTimestamp + 62)
      (replay (primitives sample) secondBranch) staleBlock = .ok () := by
  decide +kernel

theorem spend_stale :
    ∃ entry, (replay (primitives sample) secondBranch).utxoEntry (payoutKey 1) = some entry ∧
      entry.commitment ≠ firstCommitment := by
  have other : ((replay (primitives sample) secondBranch).utxoEntry (payoutKey 1)).any
      (fun entry => entry.commitment ≠ firstCommitment) = true := by
    decide +kernel
  cases found : (replay (primitives sample) secondBranch).utxoEntry (payoutKey 1) with
  | none => rw [found] at other; exact absurd other (by decide)
  | some entry => rw [found] at other; exact ⟨entry, rfl, of_decide_eq_true other⟩

/-- The cache after the spend was admitted on the first branch. -/
def spendCache : ProofCache :=
  (∅ : ProofCache).insert (spend.hash (primitives sample))
    ⟨spend, replay (primitives sample) firstBranch, 61⟩

/-- A cache with an entry, from a run. -/
theorem spendCache_run : CacheRun (primitives sample) firstBranch spendCache := by
  have idle := idle_mined sample_length (List.replicate 60 0) (by simp)
  have run := CacheRun.standalone spend
    (CacheRun.mined sample_length CacheRun.start (List.replicate 60 0) (by simp))
  have regular := (idle.chained.mono fun L b => Verified.admitted).regular
  obtain ⟨tip, found⟩ : ∃ tip, (replay (primitives sample) firstBranch).tip? = some tip :=
    ⟨_, List.getLast?_eq_some_getLast regular.started⟩
  have height : tip.height + 1 = 61 := by
    rw [regular.tip found, idle.length, length_mined, List.length_replicate]
  have uncached : proofVerified ∅ (spend.hash (primitives sample)) = false := by
    simp [proofVerified]
  have after : (validateStandaloneTx (primitives sample) (replay (primitives sample) firstBranch) ∅
      spend).2 = spendCache := by
    have normal : spend.isCoinbase = false := rfl
    have classical : hasPQ spend = false := rfl
    unfold validateStandaloneTx cacheAfterTx
    simp only [normal, Bool.false_eq_true, ↓reduceIte, found, height, uncached, spend_verified,
      classical, Bool.not_false, Bool.and_self]
    rfl
  exact after ▸ run

/-- A stale verification lets a block through that is rejected without it. -/
theorem staleBlock_accepted :
    ¬ ∀ (V : Primitives) (chain : List Block) (cache : ProofCache) (parallel : Bool) (now : Int)
        (b : Block), CacheRun V chain cache →
      ((validateBlockCached V (replay V chain) parallel now cache b).1 = .ok () ↔
        (validateBlockCached V (replay V chain) parallel now ∅ b).1 = .ok ()) := by
  intro claim
  have run : CacheRun (primitives sample) secondBranch spendCache :=
    CacheRun.mined sample_length spendCache_run.toGenesis (List.replicate 61 1) (by simp)
  have txs : staleBlock.txs.tail = [spend] := rfl
  have same := claim _ _ _ false (genesisTimestamp + 62) staleBlock run
  rw [validateBlockCached_verdict, validateBlockCached_verdict, validateBlock_split, txs] at same
  obtain ⟨_, proofs⟩ := (validateBlock_split _ _ _ _ _).mp (same.mp ⟨staleBlock_rules, by
    intro t member skipped _
    obtain rfl := List.mem_singleton.mp member
    simp [prewarmProofCacheLocked, proofVerified, spendCache] at skipped⟩)
  have uncached := proofs spend (by rw [txs]; simp)
    (by simp [prewarmProofCacheLocked, proofVerified]) rfl
  obtain ⟨entry, found, apart⟩ := spend_stale
  have verified := (uncached.inputs _ List.mem_cons_self entry found).2.1
  simp only [primitives, Bool.and_eq_true, beq_iff_eq] at verified
  exact apart (List.append_inj_left' verified.2 (by rfl)).symm

/-- A block that carries the spend on the first branch. -/
def currentBlock : Block := carrying 0 firstBranch

set_option maxRecDepth 10000 in
theorem currentBlock_verified :
    validateBlockLocked (primitives sample) (fun _ => false) (genesisTimestamp + 61)
      (replay (primitives sample) firstBranch) currentBlock = .ok () := by
  decide +kernel

/-- The spend is in the cache, and its block is accepted with the cache as it is without. -/
theorem verdict_with_spendCache :
    proofVerified spendCache (spend.hash (primitives sample)) = true ∧ spend ∈ currentBlock.txs ∧
      (validateBlockCached (primitives sample) (replay (primitives sample) firstBranch) true
        (genesisTimestamp + 61) spendCache currentBlock).1 = .ok () ∧
      (validateBlockCached (primitives sample) (replay (primitives sample) firstBranch) true
        (genesisTimestamp + 61) ∅ currentBlock).1 = .ok () := by
  have idle := idle_mined sample_length (List.replicate 60 0) (by simp)
  have height : currentBlock.header.height = 61 := by
    have mined : currentBlock.header.height = (mine sample 0 firstBranch).header.height := by
      rw [currentBlock, carrying]
    rw [mined, firstBranch, mine_height idle, length_mined, List.length_replicate]
  have uncached := validateBlockCached_of_verified currentBlock_verified true ∅
  have cached : proofVerified spendCache (spend.hash (primitives sample)) = true := by
    simp [proofVerified, spendCache]
  refine ⟨cached, List.mem_cons_of_mem _ List.mem_cons_self,
    (verdict_of_cacheCurrent spendCache_run true ?_).mpr uncached, uncached⟩
  intro _ t member entry found
  have txs : currentBlock.txs.tail = [spend] := rfl
  rw [txs] at member
  obtain rfl := List.mem_singleton.mp member
  rw [spendCache, OrdMap.lookup_insert, if_pos rfl] at found
  obtain rfl := Option.some.inj found
  refine ⟨rfl, ?_⟩
  dsimp only
  rw [height]
  exact SameRecords.refl _ _ _

end Stale

end Obscura
