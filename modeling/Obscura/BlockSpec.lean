import Obscura.Apply
import Obscura.ValidateSpec

/-! # What an accepted block satisfies

A chain that starts at genesis holds no post-quantum output, so it accepts no
post-quantum transaction, and every transaction of an accepted block but the
coinbase satisfies the specification of its legs.
-/

namespace Obscura

open Wire Tx Checked

/-! ## Difficulty and reward -/

theorem nextDifficulty_pos (timestamps : List Int) (difficulties : List Nat) :
    0 < nextDifficulty timestamps difficulties := by
  unfold nextDifficulty
  split
  · assumption
  · split
    · decide
    · dsimp only
      split
      · unfold minDifficulty
        omega
      · omega

theorem blockReward_bounds (emitted : UInt64) :
    600_000_000_000 ≤ (Config.blockReward emitted).toNat ∧
      (Config.blockReward emitted).toNat ≤ 40_000_000_000_000 := by
  unfold Config.blockReward
  split
  · decide
  · dsimp only
    split
    · decide
    · rename_i below notTail
      rw [UInt64.not_lt, UInt64.le_iff_toNat_le] at notTail
      refine ⟨notTail, ?_⟩
      have word := (Config.moneySupplyCap - emitted).toNat_lt
      have shift : Config.emissionShift.toNat % 64 = 19 := by decide
      rw [UInt64.toNat_shiftRight, Nat.shiftRight_eq_div_pow, shift]
      omega

theorem Ledger.poolContribution_eq (L : Ledger) (referrerTag : Bytes) :
    (L.blockEconomics referrerTag).2.1.toNat =
      (L.blockEconomics referrerTag).1.toNat * 500 / 10_000 := by
  have bounds := blockReward_bounds L.emitted
  change (Config.blockReward L.emitted * Config.incentivePoolBps / 10_000).toNat =
    (Config.blockReward L.emitted).toNat * 500 / 10_000
  unfold Config.incentivePoolBps
  rw [UInt64.toNat_div, UInt64.toNat_mul]
  change (Config.blockReward L.emitted).toNat * 500 % 2 ^ 64 / 10_000 = _
  rw [Nat.mod_eq_of_lt (by omega)]

section Tx

variable {V : Primitives} {L : Ledger} {skip : Bool} {t : Transaction} {height : Nat}
  {seen next : Seen} {primes : List Bytes}

theorem validatePQTx_spends (accepted : validatePQTxLocked V L t seen = .ok next) :
    ∃ input ∈ t.pqInputs, (L.pqUtxo[hexstr input.outputRef]?).isSome = true := by
  unfold validatePQTxLocked at accepted
  simp only [bind_ok, reject_ok, exists_const, Prod.exists] at accepted
  obtain ⟨_, _, _, _, nonempty, _, _, _, spent, inSum, inputs, _⟩ := accepted
  obtain ⟨input, rest, split⟩ := List.exists_cons_of_ne_nil fun empty => nonempty (Or.inl empty)
  rw [split] at inputs
  simp only [List.foldlM_cons, bind_ok] at inputs
  obtain ⟨_, first, _⟩ := inputs
  unfold checkPQInput at first
  simp only [bind_ok, reject_ok, orReject_ok, exists_const] at first
  obtain ⟨_, _, output, found, _⟩ := first
  exact ⟨input, by simp [split], by rw [found]; rfl⟩

theorem validateTx_classical (noPQ : L.pqUtxo = ∅)
    (accepted : validateTxLocked V L skip t height seen = .ok (primes, next)) :
    t.isCoinbase = false ∧ hasPQ t = false ∧ t.pqInputs = [] ∧ t.pqOutputs = [] ∧
      LegsAccepted V L skip t height seen primes next := by
  unfold validateTxLocked at accepted
  simp only [bind_ok, reject_ok, exists_const, Bool.not_eq_true] at accepted
  obtain ⟨notCoinbase, accepted⟩ := accepted
  cases pq : hasPQ t with
  | true =>
    simp only [pq, ↓reduceIte, bind_ok] at accepted
    obtain ⟨_, pqAccepted, _⟩ := accepted
    obtain ⟨input, _, found⟩ := validatePQTx_spends pqAccepted
    rw [noPQ] at found
    simp at found
  | false =>
    simp only [pq, Bool.false_eq_true, ↓reduceIte, bind_ok] at accepted
    obtain ⟨_, _, legs⟩ := accepted
    have fields : t.pqInputs = [] ∧ t.pqOutputs = [] := by
      simpa [hasPQ] using pq
    exact ⟨notCoinbase, rfl, fields.1, fields.2, validateLegs_accepted legs⟩

end Tx

section Tally

variable {V : Primitives} {skip : Transaction → Bool} {L : Ledger} {b : Block}

theorem tallyTx_classical (noPQ : L.pqUtxo = ∅) {tally next : TxTally} {t : Transaction}
    (accepted : tallyTx V skip L b tally t = .ok next) :
    t.isCoinbase = false ∧ t.pqInputs = [] ∧ t.pqOutputs = [] ∧
      next.fees.toNat = tally.fees.toNat + t.fee.toNat ∧
      ∃ primes, next.primes = tally.primes ++ primes ∧
        LegsAccepted V L (skip t) t b.header.height tally.seen primes next.seen := by
  unfold tallyTx at accepted
  simp only [bind_ok, mapError_ok, Prod.exists] at accepted
  obtain ⟨primes, seen, valid, accepted⟩ := accepted
  obtain ⟨notCoinbase, classical, noInputs, noOutputs, legs⟩ := validateTx_classical noPQ valid
  simp only [classical, Bool.false_eq_true, ↓reduceIte, bind_ok, addU64_ok, pure_ok] at accepted
  obtain ⟨fees, sum, rfl⟩ := accepted
  exact ⟨notCoinbase, noInputs, noOutputs, sum, primes, rfl, legs⟩

theorem tally_primes (noPQ : L.pqUtxo = ∅) {txs : List Transaction} {tally final : TxTally}
    (run : txs.foldlM (tallyTx V skip L b) tally = .ok final) :
    final.primes = tally.primes ++ primesOf V txs := by
  induction txs generalizing tally with
  | nil =>
    simp only [List.foldlM_nil, pure_ok] at run
    simp [run, primesOf, outputsOf]
  | cons t txs ih =>
    simp only [List.foldlM_cons, bind_ok] at run
    obtain ⟨middle, first, rest⟩ := run
    obtain ⟨_, _, _, _, primes, appended, legs⟩ := tallyTx_classical noPQ first
    rw [ih rest, appended, legs.primes]
    simp [primesOf, outputsOf, List.filterMap_append, List.filterMap_map]

end Tally

/-- The header conditions of an accepted block. -/
structure HeaderAccepted (V : Primitives) (now : Int) (L : Ledger) (b : Block) (tip : Header) :
    Prop where
  size : b.serialize.length ≤ Config.maxBlockBytes
  height : b.header.height = tip.height + 1
  prevHash : b.header.prevHash = tip.id V
  positive : b.header.difficulty ≠ 0
  notFuture : b.header.timestamp ≤ now + Config.maxFutureDriftSeconds
  afterMedian : L.medianTimePast < b.header.timestamp
  difficulty : b.header.difficulty = L.expectedDifficulty
  work : ∃ seed, L.powSeed V b.header.height = some seed ∧
    V.powMeets (b.header.powHashSeed V seed) b.header.difficulty = true

/-- The check of the header, as conditions. -/
theorem checkHeader_ok {V : Primitives} {now : Int} {L : Ledger} {b : Block} {tip : Header}
    {result : Unit} :
    checkHeader V now L b tip = .ok result ↔ HeaderAccepted V now L b tip := by
  unfold checkHeader
  simp only [bind_ok, reject_ok, orReject_ok, exists_const, not_lt, ne_eq, not_not, not_le,
    Bool.not_eq_true, Bool.not_eq_false']
  constructor
  · rintro ⟨size, height, prevHash, positive, notFuture, afterMedian, difficulty, work⟩
    exact ⟨size, height, prevHash, positive, notFuture, afterMedian, difficulty, work⟩
  · rintro ⟨size, height, prevHash, positive, notFuture, afterMedian, difficulty, work⟩
    exact ⟨size, height, prevHash, positive, notFuture, afterMedian, difficulty, work⟩

/-- The fields a coinbase must leave empty. -/
structure CoinbaseLegs (cb : Transaction) : Prop where
  inputs : cb.inputs = []
  anonInputs : cb.anonInputs = []
  swapInputs : cb.swapInputs = []
  swapOutputs : cb.swapOutputs = []
  zkInputs : cb.zkInputs = []
  zkOutputs : cb.zkOutputs = []
  czkSpends : cb.czkSpends = []
  vaultInputs : cb.vaultInputs = []
  vaultOutputs : cb.vaultOutputs = []
  pqInputs : cb.pqInputs = []
  pqOutputs : cb.pqOutputs = []
  pqBlindDiff : cb.pqBlindDiff = []

theorem checkCoinbaseLegs_ok {cb : Transaction} {result : Unit} :
    checkCoinbaseLegs cb = .ok result ↔ CoinbaseLegs cb := by
  unfold checkCoinbaseLegs
  simp only [reject_ok, not_or, ne_eq, not_not]
  constructor
  · rintro ⟨i, a, si, so, zi, zo, cz, vi, vo, pi, po, pd⟩
    exact ⟨i, a, si, so, zi, zo, cz, vi, vo, pi, po, pd⟩
  · rintro ⟨i, a, si, so, zi, zo, cz, vi, vo, pi, po, pd⟩
    exact ⟨i, a, si, so, zi, zo, cz, vi, vo, pi, po, pd⟩

/-- What block validation establishes of the block `cb :: txs` on a chain without
post-quantum outputs. -/
structure BlockAccepted (V : Primitives) (skip : Transaction → Bool) (now : Int) (L : Ledger)
    (b : Block) (cb : Transaction) (txs : List Transaction) : Prop where
  split : b.txs = cb :: txs
  header : ∃ tip, L.tip? = some tip ∧ HeaderAccepted V now L b tip
  isCoinbase : cb.isCoinbase = true
  coinbase : CoinbaseLegs cb
  coinbaseOutputs : ∀ o ∈ cb.outputs, L.coins.coinByKey o.oneTimeKey = none ∧
    V.verifyRangeBytes o.commitment o.rangeProof = true ∧
    ∃ pb, V.hashToPrime o.oneTimeKey o.primeNonce = some pb ∧
      L.outPrimes.has (hexstr pb) = false
  normal : ∀ t ∈ txs, t.isCoinbase = false ∧ t.pqInputs = [] ∧ t.pqOutputs = []
  legs : ∀ t ∈ txs, ∃ seen primes next,
    LegsAccepted V L (skip t) t b.header.height seen primes next
  spent : (txs.flatMap (spentKeys V)).Nodup
  refs : (txs.flatMap fun t => t.inputs.flatMap fun input => [hexstr input.outputRef]).Nodup
  outputKeys : (b.txs.flatMap fun t => t.outputs.flatMap (outputKeys V)).Nodup
  yields : ((txs.flatMap Transaction.vaultInputs).map fun input => input.yield.toNat).sum ≤
    L.incentivePool.toNat
  minted : cb.minted.toNat + (L.blockEconomics cb.referrerTag).2.1.toNat =
    (L.blockEconomics cb.referrerTag).1.toNat + (txs.map fun t => t.fee.toNat).sum
  coinbaseHeight : cb.height.toNat = b.header.height
  coinbaseConservation : ∃ ctx, V.verifyCoinbaseConservation cb.minted
    (commitmentList cb.outputs) cb.conservation ctx = true
  merkle : merkleRoot V b.txs = b.header.merkleRoot
  por : validatePoRLocked V L b = .ok ()
  roots : checkRoots V L b (primesOf V b.txs) = .ok ()

section Block

variable {V : Primitives} {skip : Transaction → Bool} {now : Int} {L : Ledger} {b : Block}

theorem checkTxList_ok {cb : Transaction} (accepted : checkTxList V b = .ok cb) :
    cb.isCoinbase = true ∧ ∃ txs, b.txs = cb :: txs := by
  unfold checkTxList at accepted
  simp only [bind_ok, reject_ok, orReject_ok, pure_ok, exists_const, Bool.not_eq_true,
    Bool.not_eq_false'] at accepted
  obtain ⟨head, first, isCoinbase, _, _, rfl⟩ := accepted
  cases txs : b.txs with
  | nil => simp [txs] at first
  | cons t rest =>
    rw [txs] at first
    obtain rfl := Option.some.inj first
    exact ⟨isCoinbase, rest, rfl⟩

/-- The yields fit the incentive pool. -/
theorem checkVaultYields_ok (accepted : checkVaultYields L b = .ok ()) :
    ((b.txs.flatMap Transaction.vaultInputs).map fun input => input.yield.toNat).sum ≤
      L.incentivePool.toNat := by
  unfold checkVaultYields at accepted
  simp only [bind_ok, reject_ok, UInt64.not_lt] at accepted
  obtain ⟨total, run, covered⟩ := accepted
  have sum := foldlM_sum (fun total : UInt64 => total.toNat)
    (fun input : VaultIn => input.yield.toNat) ?_ run
  · rw [UInt64.toNat_zero, Nat.zero_add] at sum
    rw [← sum]
    exact UInt64.le_iff_toNat_le.mp covered
  · intro total input next step
    simp only [bind_ok, addU64_ok] at step
    obtain ⟨_, _, _, _, sum⟩ := step
    exact sum

theorem expectedCoinbaseMinted_ok {fees minted : UInt64} {tag : Bytes}
    (expected : L.expectedCoinbaseMinted fees tag = .ok minted) :
    minted.toNat + (L.blockEconomics tag).2.1.toNat =
      (L.blockEconomics tag).1.toNat + fees.toNat := by
  unfold Ledger.expectedCoinbaseMinted at expected
  generalize L.blockEconomics tag = economics at expected ⊢
  obtain ⟨base, pool, bonus⟩ := economics
  simp only [bind_ok, reject_ok, exists_const, UInt64.not_lt, addU64_ok] at expected
  obtain ⟨within, sum⟩ := expected
  rw [UInt64.toNat_sub_of_le _ _ within] at sum
  rw [UInt64.le_iff_toNat_le] at within
  change minted.toNat + pool.toNat = base.toNat + fees.toNat
  omega

/-- An accepted block, as conditions. -/
theorem validateBlock_accepted (noPQ : L.pqUtxo = ∅)
    (accepted : validateBlockLocked V skip now L b = .ok ()) :
    ∃ cb txs, BlockAccepted V skip now L b cb txs := by
  unfold validateBlockLocked at accepted
  simp only [bind_ok, reject_ok, orReject_ok, exists_const, Prod.exists, ne_eq,
    not_not] at accepted
  obtain ⟨tip, tipFound, _, headerOk, cb, listOk, primes, prime, outputsOk, _, legsOk, tally,
    tallyRun, _, yieldsOk, _, coinbaseOk, merkle, _, por, roots⟩ := accepted
  obtain ⟨isCoinbase, txs, split⟩ := checkTxList_ok listOk
  rw [split, List.tail_cons] at tallyRun
  have coinbase := checkCoinbaseLegs_ok.mp legsOk
  unfold checkOutputs at outputsOk
  obtain ⟨primeFresh, primesEq, outputFacts⟩ := outputs_run outputsOk
  have spentFresh := foldlM_fresh (fun tally : TxTally => tally.seen.spent) (spentKeys V)
    (fun state t next step => by
      obtain ⟨_, _, _, _, _, _, legs⟩ := tallyTx_classical noPQ step
      exact legs.spent) tallyRun
  have refsFresh := foldlM_fresh (fun tally : TxTally => tally.seen.spent)
    (fun t : Transaction => t.inputs.flatMap fun input => [hexstr input.outputRef])
    (fun state t next step => by
      obtain ⟨_, _, _, _, _, _, legs⟩ := tallyTx_classical noPQ step
      exact legs.refs) tallyRun
  have keysFresh := foldlM_fresh (fun tally : TxTally => tally.seen.prime)
    (fun t : Transaction => t.outputs.flatMap (outputKeys V))
    (fun state t next step => by
      obtain ⟨_, _, _, _, _, _, legs⟩ := tallyTx_classical noPQ step
      exact legs.prime) tallyRun
  have fees := foldlM_sum (fun tally : TxTally => tally.fees.toNat)
    (fun t : Transaction => t.fee.toNat)
    (fun state t next step => (tallyTx_classical noPQ step).2.2.2.1) tallyRun
  unfold checkCoinbase at coinbaseOk
  simp only [bind_ok, reject_ok, exists_const, ne_eq, not_not, Bool.not_eq_true,
    Bool.not_eq_false'] at coinbaseOk
  obtain ⟨minted, expected, mintedEq, _, heightEq, _, conserved⟩ := coinbaseOk
  refine ⟨cb, txs, ?_⟩
  constructor
  case split => exact split
  case header => exact ⟨tip, tipFound, checkHeader_ok.mp headerOk⟩
  case isCoinbase => exact isCoinbase
  case coinbase => exact coinbase
  case coinbaseOutputs =>
    intro o member
    obtain ⟨absent, range, prime⟩ := outputFacts o member
    exact ⟨absent, range rfl, prime⟩
  case normal =>
    refine foldlM_forall _ ?_ tallyRun
    intro state t next step
    obtain ⟨notCoinbase, noInputs, noOutputs, _⟩ := tallyTx_classical noPQ step
    exact ⟨notCoinbase, noInputs, noOutputs⟩
  case legs =>
    refine foldlM_forall _ ?_ tallyRun
    intro state t next step
    obtain ⟨_, _, _, _, primes, _, legs⟩ := tallyTx_classical noPQ step
    exact ⟨state.seen, primes, next.seen, legs⟩
  case spent => exact spentFresh.distinct
  case refs => exact refsFresh.distinct
  case outputKeys =>
    rw [split, List.flatMap_cons]
    exact (primeFresh.append keysFresh).distinct
  case yields =>
    have yields := checkVaultYields_ok yieldsOk
    rwa [split, List.flatMap_cons, coinbase.vaultInputs, List.nil_append] at yields
  case minted =>
    have sum := expectedCoinbaseMinted_ok expected
    simp only [UInt64.toNat_zero, Nat.zero_add] at fees
    rw [mintedEq, sum, fees]
  case coinbaseHeight => exact heightEq
  case coinbaseConservation => exact ⟨_, conserved⟩
  case merkle => exact merkle
  case por => exact por
  case roots =>
    have primesTotal := tally_primes noPQ tallyRun
    have all : tally.primes = primesOf V b.txs := by
      rw [primesTotal, split, primesEq]
      simp [primesOf, outputsOf, List.filterMap_append, List.filterMap_map]
    rw [← all]
    exact roots

end Block

end Obscura
