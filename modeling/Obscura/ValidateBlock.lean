import Obscura.Validate

/-! # Block validation

Difficulty retargeting, block economics and `validateBlockLocked`, cut into the
sections of the source: header, transactions, vault affordability, coinbase
economics, and the roots the header commits. The clock is an argument. `skip`
says which transactions hit the verified-proof cache.
-/

namespace Obscura

open Wire Tx Checked

/-! ## Difficulty -/

/-- No block is easier than this. -/
def minDifficulty : Nat := 16

/-- Linearly weighted moving average over the last `difficultyWindow` blocks. -/
def nextDifficulty (timestamps : List Int) (difficulties : List Nat) : Nat :=
  if Config.fixedDifficulty > 0 then
    Config.fixedDifficulty
  else if difficulties.length < 2 then
    Config.genesisDifficulty
  else
    let window := min difficulties.length Config.difficultyWindow
    let ts := timestamps.drop (timestamps.length - window)
    let df := difficulties.drop (difficulties.length - window)
    let target := Config.targetBlockTime
    let solves := List.zipWith (fun older newer : Int =>
      max (-6 * target) (min (6 * target) (newer - older))) ts ts.tail
    let weightedTime := ((solves.zipIdx 1).map fun (solve, weight) => solve * weight).sum
    let denom : Nat := ((List.range' 1 (window - 1))).sum
    let sumDiff := df.tail.sum
    let minWT := max 1 (window * target / 20)
    let weightedTime := (max minWT weightedTime).toNat
    let avgDiff := sumDiff / (window - 1)
    let next := avgDiff * target.toNat * denom / weightedTime
    let last := df.getLast?.getD 0
    let next := max minDifficulty (max (last / 2) (min (last * 2) next))
    if next < 2 ^ 64 then next else 2 ^ 64 - 1

namespace Ledger

/-- The timestamps and difficulties the next difficulty is computed from. -/
def recentTimestampsAndDiffs (L : Ledger) : List Int × List Nat :=
  let recent := L.headers.drop (L.headers.length - (Config.difficultyWindow + 1))
  (recent.map Header.timestamp, recent.map Header.difficulty)

/-- The difficulty that the next block is to have. -/
def expectedDifficulty (L : Ledger) : Nat :=
  nextDifficulty L.recentTimestampsAndDiffs.1 L.recentTimestampsAndDiffs.2

/-- The median timestamp of the last eleven blocks. -/
def medianTimePast (L : Ledger) : Int :=
  let recent := (L.headers.drop (L.headers.length - 11)).map Header.timestamp
  ((recent.insertionSort (· ≤ ·))[recent.length / 2]?).getD 0

/-- The PoW seed at a height, unless its seed block is not in the chain. -/
def powSeed (V : Primitives) (L : Ledger) (height : Nat) : Option Bytes :=
  let seedHeight := Config.powSeedHeight height
  if seedHeight = 0 then some Config.powGenesisSeed
  else L.headers[seedHeight]?.map fun header => header.id V

/-! ## Economics -/

/-- `referralBonusFor`: a share of the base reward that falls with every claim. -/
def referralBonusFor (L : Ledger) (referrerTag : Bytes) (baseReward : UInt64) : UInt64 :=
  if referrerTag = [] then
    0
  else
    let used := L.referral[hexstr referrerTag]?.getD 0
    if Config.referralMaxClaims ≤ used then 0
    else
      baseReward * Config.referralMaxBps / 10_000 * (Config.referralMaxClaims - used) /
        Config.referralMaxClaims

/-- The base reward, the pool contribution and the referral bonus of the next
block. -/
def blockEconomics (L : Ledger) (referrerTag : Bytes) : UInt64 × UInt64 × UInt64 :=
  let baseReward := Config.blockReward L.emitted
  (baseReward, baseReward * Config.incentivePoolBps / 10_000,
    L.referralBonusFor referrerTag baseReward)

/-- What the coinbase is to mint: base reward, pool share, fees and bonus. -/
def expectedCoinbaseMinted (L : Ledger) (fees : UInt64) (referrerTag : Bytes) : Check UInt64 := do
  let (base, pool, _) := L.blockEconomics referrerTag
  reject (base < pool) (invalid "pool contribution exceeds reward")
  addU64 (base - pool) fees "minted overflow (fees)"

end Ledger

/-! ## What a block spends and creates -/

/-- The key images of a transaction in the order in which they are recorded. -/
def txTags (V : Primitives) (t : Transaction) : List Bytes :=
  if t.isCoinbase then []
  else
    (t.inputs.filter fun input => input.keyImage.length = 32).map
        (fun input => recordedTag V input.keyImage) ++
      t.anonInputs.map fun input => recordedTag V input.tag

/-- The tags of a block, transaction by transaction. -/
def blockTagsFromTxs (V : Primitives) (txs : List Transaction) : List Bytes :=
  txs.flatMap (txTags V)

/-- The commitment-tree leaves of a block, in order of application. -/
def cmLeavesFromTxs (txs : List Transaction) : List Node :=
  txs.flatMap fun t =>
    t.zkOutputs.filterMap (fun o => parseNode o.leaf) ++
      t.czkSpends.filterMap fun s => parseNode s.leafOut

/-- The post-quantum keys of a block. -/
def pqKeysFromTxs (txs : List Transaction) : List Bytes :=
  txs.flatMap fun t => t.pqOutputs.map PQOutput.oneTimeKey

/-! ## The sections of block validation -/

section Block

variable (V : Primitives) (skip : Transaction → Bool) (now : Int) (L : Ledger) (b : Block)

/-- The header against its parent: size, link, height, time and difficulty. -/
def checkHeader (tip : Header) : Check Unit := do
  let h := b.header
  let size := b.serialize.length
  reject (Config.maxBlockBytes < size)
    (invalid s!"block too large ({size} > {Config.maxBlockBytes})")
  reject (h.height ≠ tip.height + 1) (invalid s!"height {h.height}, expected {tip.height + 1}")
  reject (h.prevHash ≠ tip.id V) (invalid "prevhash mismatch")
  reject (h.difficulty = 0) (invalid "zero difficulty")
  reject (now + Config.maxFutureDriftSeconds < h.timestamp)
    (invalid "timestamp too far in future")
  reject (h.timestamp ≤ L.medianTimePast) (invalid "timestamp <= median-time-past")
  reject (h.difficulty ≠ L.expectedDifficulty)
    (invalid s!"difficulty {h.difficulty}, expected {L.expectedDifficulty}")
  let seed ← orReject (L.powSeed V h.height)
    (invalid s!"missing PoW epoch seed for height {h.height}")
  reject (!V.powMeets (h.powHashSeed V seed) h.difficulty) (invalid "insufficient proof of work")

/-- One coinbase, in front, and no transaction twice. -/
def checkTxList : Check Transaction := do
  let cb ← orReject b.txs.head? (invalid "missing coinbase")
  reject (!cb.isCoinbase) (invalid "missing coinbase")
  let _ ← b.txs.zipIdx.foldlM (fun (seenTxid : List Hash) (t, i) => do
    reject (0 < i ∧ t.isCoinbase) (invalid "multiple coinbases")
    reject (t.hash V ∈ seenTxid) (invalid "duplicate transaction in block")
    pure (t.hash V :: seenTxid)) []
  pure cb

/-- A coinbase carries only transparent outputs. -/
def checkCoinbaseLegs (cb : Transaction) : Check Unit :=
  reject (cb.inputs ≠ [] ∨ cb.anonInputs ≠ [] ∨ cb.swapInputs ≠ [] ∨ cb.swapOutputs ≠ [] ∨
    cb.zkInputs ≠ [] ∨ cb.zkOutputs ≠ [] ∨ cb.czkSpends ≠ [] ∨ cb.vaultInputs ≠ [] ∨
    cb.vaultOutputs ≠ [] ∨ cb.pqInputs ≠ [] ∨ cb.pqOutputs ≠ [] ∨ cb.pqBlindDiff ≠ [])
    (invalid "coinbase may carry only transparent outputs")

/-- The new primes, the dedup sets and the collected fees. -/
structure TxTally where
  primes : List Bytes
  seen : Seen
  fees : UInt64 := 0

/-- An id as it is printed in errors. -/
def hexText (hash : Hash) : String :=
  String.ofList ((hexstr hash).map fun byte => Char.ofNat byte.toNat)

/-- One transaction of the block; the fee of a post-quantum one is not collected. -/
def tallyTx (tally : TxTally) (t : Transaction) : Check TxTally := do
  let (primes, seen) ←
    (validateTxLocked V L (skip t) t b.header.height tally.seen).mapError fun err =>
      "tx " ++ hexText (t.hash V) ++ ": " ++ err
  if hasPQ t then
    pure { tally with primes := tally.primes ++ primes, seen := seen }
  else do
    let fees ← addU64 tally.fees t.fee "fee sum overflow"
    pure ⟨tally.primes ++ primes, seen, fees⟩

/-- The stated yields of all vault claims must be covered by the incentive pool. -/
def checkVaultYields : Check Unit := do
  let total ← (b.txs.flatMap Transaction.vaultInputs).foldlM (fun (total : UInt64) input => do
    let v ← orReject L.vaults[hexstr input.vaultKey]?
      (invalid "vault claim references unknown vault")
    let _ ← orReject (vaultYieldAt v b.header.height) (invalid "vault yield computation overflow")
    addU64 total input.yield "vault yield sum overflow") 0
  reject (L.incentivePool < total) (invalid "vault yield exceeds incentive pool")

/-- The coinbase: its amount, its excess and its outputs. -/
def checkCoinbase (cb : Transaction) (fees : UInt64) : Check Unit := do
  let expMinted ← L.expectedCoinbaseMinted fees cb.referrerTag
  reject (cb.minted ≠ expMinted) (invalid s!"coinbase minted {cb.minted}, expected {expMinted}")
  reject (Config.moneySupplyCap < cb.minted) (invalid "coinbase minted exceeds supply cap")
  reject (cb.height.toNat ≠ b.header.height) (invalid "coinbase height mismatch")
  reject (cb.inputs ≠ []) (invalid "coinbase must have no inputs")
  let cbForCtx := { cb with pqInputs := [], pqOutputs := [], pqBlindDiff := [] }
  reject (!V.verifyCoinbaseConservation cb.minted (commitmentList cb.outputs) cb.conservation
    (cbForCtx.coreHash V)) (invalid "coinbase conservation invalid")

/-- The retrievability proofs, checked against stored headers only. -/
def validatePoRLocked : Check Unit := do
  let h := b.header
  reject (h.numTxs ≠ b.txs.length) (invalid s!"header NumTxs {h.numTxs} != {b.txs.length}")
  if !porRequired h.height then
    reject (b.por ≠ [] ∨ h.porRoot ≠ zeroHash) (invalid "PoR present on exempt (genesis) block")
  else do
    reject (b.por.length ≠ Config.porChallenges)
      (invalid s!"PoR entry count {b.por.length}, want {Config.porChallenges}")
    reject (porRootOf V b.por ≠ h.porRoot) (invalid "PoR root mismatch")
    b.por.zipIdx.forM fun (entry, slot) => do
      let hc := porChallengeHeight V h.prevHash slot h.height
      let hdr ← orReject L.headers[hc]?
        (invalid s!"PoR challenge height {hc} out of range")
      let idx := porChallengeIndex V h.prevHash slot hdr.numTxs
      reject (!verifyPoREntry V entry hc idx hdr.merkleRoot)
        (invalid s!"PoR proof slot {slot} invalid (height {hc} idx {idx})")

/-- The roots after the block, predicted from the state before it, and the root
of that state. -/
def checkRoots (primes : List Bytes) : Check Unit := do
  let h := b.header
  reject (V.groupExp L.acc.value (primes.map ofBigEndian).prod ≠ h.accValue)
    (invalid "accumulator checkpoint mismatch")
  reject (h.accSize ≠ L.acc.size + primes.length) (invalid "accumulator size mismatch")
  reject (L.pqAcc.rootAfter V (pqKeysFromTxs b.txs) ≠ h.pqAccRoot)
    (invalid "pq accumulator root mismatch")
  reject (L.nullAcc.rootAfter V (blockTagsFromTxs V b.txs) ≠ h.nullRoot)
    (invalid "nullifier root mismatch")
  reject (L.cmTree.rootAfter V (cmLeavesFromTxs b.txs) ≠ h.cmRoot)
    (invalid "commitment-tree root mismatch")
  reject (L.stateRoot V ≠ h.stateRoot) (invalid "state-root mismatch")

/-- Validate a candidate block against the current tip. -/
def validateBlockLocked : Check Unit := do
  let tip ← orReject L.tip? "runtime error: index out of range [-1]"
  checkHeader V now L b tip
  let cb ← checkTxList V b
  let (primes, prime) ← checkOutputs V L false [] cb.outputs
  checkCoinbaseLegs cb
  let tally ← b.txs.tail.foldlM (tallyTx V skip L b) ⟨primes, ⟨[], prime⟩, 0⟩
  checkVaultYields L b
  checkCoinbase V L b cb tally.fees
  reject (merkleRoot V b.txs ≠ b.header.merkleRoot) (invalid "merkle root mismatch")
  validatePoRLocked V L b
  checkRoots V L b tally.primes

end Block

end Obscura
