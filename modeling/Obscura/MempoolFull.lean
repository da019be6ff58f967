import Obscura.MempoolAdmission
import Obscura.Transfer

/-! # Evicted for nothing

Sixteen transactions that fill almost all of the pool, a small one that pays less per byte,
and one that comes in between: it is too large for what is left, so the small one is evicted
and the incoming one refused nevertheless.
-/

namespace Obscura.Mempool

open Wire Tx Checked Testnet

/-! ## Coins of a miner -/

/-- The reference of the first input of a transaction. -/
def firstRef (bytes : Bytes) : Hash := ((bytes.drop 15).take 32 ++ List.replicate 32 0).take 32

theorem firstRef_length (bytes : Bytes) : (firstRef bytes).length = 32 := by
  rw [firstRef, List.length_take, List.length_append, List.length_replicate]
  omega

/-- A network whose transactions are named by what they spend first. -/
def refNet : Primitives := primitives firstRef

/-- A chain of empty blocks. -/
def branch (count : Nat) : List Block := mined firstRef (List.replicate count 0)

/-- What the miner of a height is paid. -/
def paidAt (height : Nat) : UInt64 := reward (replay refNet (branch (height - 1)))

theorem branch_idle {count : Nat} (small : count < 2 ^ 64) : Idle firstRef (branch count) :=
  idle_mined firstRef_length _ (by rwa [List.length_replicate])

theorem length_branch (count : Nat) : (branch count).length = count := by
  rw [branch, length_mined, List.length_replicate]

/-- The miner's coins lie on the chain, unspent. -/
theorem branch_lists {count : Nat} (small : count < 2 ^ 64) :
    (chainLists refNet (branch count)).spent = [] ∧ (chainLists refNet (branch count)).tags = [] ∧
      ∀ k, 0 < k → k ≤ count → ∃ index,
        (⟨payoutKey k, Forge.shown (paidAt k), k, true, 0, index⟩ : CoinInfo) ∈
          (chainLists refNet (branch count)).coins := by
  induction count with
  | zero =>
    refine ⟨rfl, rfl, ?_⟩
    intro k positive below
    omega
  | succ count ih =>
    obtain ⟨spent, tags, coins⟩ := ih (by omega)
    have height : (replay refNet (branch count)).headers.length = count + 1 := by
      have length := (@branch_idle count (by omega)).length
      rwa [length_branch] at length
    have lists : chainLists refNet (branch (count + 1)) =
        (chainLists refNet (branch count)).append
          (blockLists refNet (chainLists refNet (branch count)).coins.length
            (mine firstRef 0 (branch count))) := rfl
    rw [lists]
    refine ⟨?_, ?_, ?_⟩
    · rw [StoreLists.append, spent]
      rfl
    · rw [StoreLists.append, tags]
      rfl
    · intro k positive below
      rcases Nat.lt_or_ge count k with fresh | old
      · obtain rfl : k = count + 1 := by omega
        refine ⟨(chainLists refNet (branch count)).coins.length, List.mem_append_right _ ?_⟩
        refine List.mem_singleton.mpr ?_
        rw [paidAt, Nat.add_sub_cancel, ← height]
        rfl
      · obtain ⟨index, member⟩ := coins k positive old
        exact ⟨index, List.mem_append_left _ member⟩

/-! ## Transactions of any size -/

/-- What a transaction of the miner keeps, with a filler. -/
def padding (amount fee : UInt64) (pad : Nat) : Output where
  oneTimeKey := payoutKey 1000
  txPubKey := zeroHash
  commitment := Forge.shown (amount - fee)
  encAmount := List.replicate pad 0

/-- The coin minted at a height moves to a new key. -/
def padded (born : Nat) (amount fee : UInt64) (pad : Nat) : Transaction :=
  Forge.moved refNet born amount fee (padding amount fee pad)

section Padded

variable {born pad : Nat} {amount fee : UInt64}

theorem refNet_hash (t : Transaction) : t.hash refNet = firstRef t.serialize := by
  rw [Transaction.hash, refNet, primitives]

theorem coreHash_length (t : Transaction) : (t.coreHash refNet).length = 32 :=
  firstRef_length _

theorem padded_size : (padded born amount fee pad).serialize.length = 528 + pad := by
  unfold Transaction.serialize
  simp only [padded, Forge.moved, padding, putList, Input.serialize, Output.serialize, List.length_append,
    length_bigEndian, length_wB, length_wU64, List.flatMap_cons, List.flatMap_nil, List.append_nil,
    List.length_cons, List.length_nil, payoutKey_length, Forge.length_shown, coreHash_length,
    zeroHash, List.length_replicate, putU64, wBool]
  omega

theorem padded_inputs : ∃ ownership equality, (padded born amount fee pad).inputs =
    [⟨payoutKey born, ownership, Forge.shown amount, equality, payoutKey born, []⟩] :=
  ⟨_, _, rfl⟩

theorem padded_hash : (padded born amount fee pad).hash refNet = payoutKey born := by
  obtain ⟨ownership, equality, inputs⟩ := @padded_inputs born pad amount fee
  obtain ⟨rest, serialized⟩ : ∃ rest, (padded born amount fee pad).serialize =
      (bigEndian 2 1 ++ [0] ++ bigEndian 8 1 ++ bigEndian 4 32) ++ (payoutKey born ++ rest) := by
    unfold Transaction.serialize
    rw [inputs]
    simp only [putList, List.flatMap_cons, Input.serialize, wB, payoutKey_length,
      List.append_assoc]
    exact ⟨_, rfl⟩
  have front : (bigEndian 2 1 ++ [0] ++ bigEndian 8 1 ++ bigEndian 4 32).length = 15 := rfl
  rw [refNet_hash, firstRef, serialized, List.drop_left' front, List.take_left' (payoutKey_length born),
    List.take_left' (payoutKey_length born)]

/-- The keys of a padded payment. -/
theorem padded_keys : spendKeys refNet (padded born amount fee pad) =
    [payoutKey born, ascii "tag:" ++ payoutKey born] := by
  obtain ⟨ownership, equality, inputs⟩ := @padded_inputs born pad amount fee
  have legs : (padded born amount fee pad).anonInputs = [] ∧
      (padded born amount fee pad).swapInputs = [] ∧
      (padded born amount fee pad).vaultInputs = [] ∧
      (padded born amount fee pad).zkInputs = [] ∧
      (padded born amount fee pad).czkSpends = [] ∧
      (padded born amount fee pad).pqInputs = [] := ⟨rfl, rfl, rfl, rfl, rfl, rfl⟩
  obtain ⟨anon, swap, vault, zk, czk, pq⟩ := legs
  rw [spendKeys, inputs, anon, swap, vault, zk, czk, pq]
  simp only [List.flatMap_cons, List.flatMap_nil, List.map_nil, List.append_nil, inputKeys,
    payoutKey_length, if_true]
  rfl

theorem padded_valid {L : Ledger} {index height : Nat}
    (coin : L.utxoEntry (payoutKey born) =
      some ⟨payoutKey born, Forge.shown amount, born, true, 0, index⟩)
    (untagged : L.tags.has (hexstr (payoutKey born)) = false)
    (mature : born + Config.coinbaseMaturity ≤ height) (small : pad ≤ 2 ^ 31)
    (paid : (528 + pad) * 1000 ≤ fee.toNat) (enough : fee ≤ amount)
    (new : L.coins.coinByKey (payoutKey 1000) = none ∧
      L.outPrimes.has (hexstr (payoutKey 1000)) = false) :
    ∃ result, validateTxLocked refNet L false (padded born amount fee pad) height ⟨[], []⟩ =
      .ok result := by
  have size := @padded_size born pad amount fee
  rw [padded] at size ⊢
  obtain ⟨seen, valid⟩ := @Forge.moved_valid L born index height amount [] refNet firstRef
    ⟨_, _, _⟩ rfl fee (padding amount fee pad) coin untagged mature
    (by rw [size]; omega) (by rw [size]; exact paid) enough rfl ⟨payoutKey_length 1000, rfl⟩ new
    ⟨List.not_mem_nil, List.not_mem_nil⟩
  exact ⟨_, valid⟩

end Padded

/-! ## Filling a pool -/

theorem add_full {V : Primitives} {present : Bool} {valid : Check Unit} {L : Ledger}
    {now : Int} (added : Int) {listings : Nat → Listing} {m : Mempool} {t : Transaction}
    (passed : precheck present valid t = .ok ())
    (accepted : ¬Refused V L (expireLocked V now m) t)
    (noConflicts : conflictsOf V (expireLocked V now m) t = [])
    (refused : (makeRoom V listings (rateOf t t.serialize.length) t.serialize.length
      (expireLocked V now m)).1 = false) :
    (add V present valid L now added listings m t).1 = .error "mempool: full" ∧
      (add V present valid L now added listings m t).2 =
        (makeRoom V listings (rateOf t t.serialize.length) t.serialize.length
          (expireLocked V now m)).2 := by
  rw [add, passed]
  dsimp only
  rw [addLocked_of_accepted accepted, noConflicts]
  rw [show deleteAll V (expireLocked V now m) [] = expireLocked V now m from rfl]
  generalize makeRoom V listings (rateOf t t.serialize.length) t.serialize.length
    (expireLocked V now m) = outcome at refused ⊢
  obtain ⟨granted, m⟩ := outcome
  obtain rfl : granted = false := refused
  exact ⟨rfl, rfl⟩

section Filled

variable (V : Primitives) (txs : Nat → Transaction)

/-- The first transactions of a sequence, pooled in turn. -/
def filled : Nat → Mempool
  | 0 => {}
  | k + 1 => inserted V 0 (txs k) (filled k)

variable {V txs} {k bound : Nat}

/-- The entries of a pool that was filled. -/
theorem filled_txs (apart : ∀ i j, i < bound → j < bound → i ≠ j →
      hashHex V (txs i) ≠ hashHex V (txs j)) (small : k ≤ bound) (id : Bytes) (e : Entry) :
    (filled V txs k).txs[id]? = some e ↔
      ∃ i < k, id = hashHex V (txs i) ∧ e = pending V 0 (txs i) := by
  induction k with
  | zero => simp [filled]
  | succ k ih =>
    rw [filled, inserted, OrdMap.lookup_insert]
    split_ifs with same
    · constructor
      · intro found
        exact ⟨k, Nat.lt_succ_self k, same.symm, (Option.some.inj found).symm⟩
      · rintro ⟨i, below, rfl, rfl⟩
        by_cases equal : i = k
        · rw [equal]
        · exact absurd same (apart k i (by omega) (by omega) (Ne.symm equal))
    · rw [ih (by omega)]
      constructor
      · rintro ⟨i, below, rfl, rfl⟩
        exact ⟨i, by omega, rfl, rfl⟩
      · rintro ⟨i, below, rfl, rfl⟩
        have earlier : i ≠ k := fun equal => same (by rw [equal])
        exact ⟨i, by omega, rfl, rfl⟩

theorem filled_bytes (k : Nat) :
    (filled V txs k).curBytes =
        (((List.range k).map fun i => (txs i).serialize.length).sum : Nat) ∧
      (filled V txs k).txs.size ≤ k := by
  induction k with
  | zero => exact ⟨rfl, Nat.le_refl 0⟩
  | succ k ih =>
    obtain ⟨bytes, count⟩ := ih
    have more : (filled V txs (k + 1)).txs.size ≤ (filled V txs k).txs.size + 1 :=
      Std.ExtTreeMap.size_insert_le
    refine ⟨?_, by omega⟩
    rw [List.range_succ, List.map_append, List.sum_append, List.map_singleton,
      List.sum_singleton, Nat.cast_add, ← bytes]
    rfl

/-- What is not pooled yet conflicts with nothing. -/
theorem filled_free (apart : ∀ i j, i < bound → j < bound → i ≠ j →
      hashHex V (txs i) ≠ hashHex V (txs j) ∧
        ∀ key ∈ spendKeys V (txs i), key ∉ spendKeys V (txs j))
    (small : k < bound) (reached : Reachable V (filled V txs k)) :
    (filled V txs k).txs[hashHex V (txs k)]? = none ∧
      ∀ key ∈ spendKeys V (txs k), (filled V txs k).spentBy[key]? = none := by
  have listed := filled_txs (fun i j first second other => (apart i j first second other).1)
    (Nat.le_of_lt small)
  constructor
  · rw [Option.eq_none_iff_forall_ne_some]
    intro e found
    obtain ⟨i, below, same, -⟩ := (listed _ _).mp found
    exact (apart k i small (by omega) (Nat.ne_of_gt below)).1 same
  · intro key member
    rw [Option.eq_none_iff_forall_ne_some]
    intro id owner
    obtain ⟨e, found, spends⟩ := (reached.indexed.owners key id).mp owner
    obtain ⟨i, below, rfl, rfl⟩ := (listed _ _).mp found
    exact (apart k i small (by omega) (Nat.ne_of_gt below)).2 key member spends

theorem filled_young (apart : ∀ i j, i < bound → j < bound → i ≠ j →
      hashHex V (txs i) ≠ hashHex V (txs j)) (small : k ≤ bound) (id : Bytes) (e : Entry)
    (found : (filled V txs k).txs[id]? = some e) : 0 - e.added ≤ txTTL := by
  obtain ⟨i, below, rfl, rfl⟩ := (filled_txs apart small _ _).mp found
  change (0 : Int) - 0 ≤ txTTL
  decide

/-- They are admitted one after the other while there is room. -/
theorem filled_reachable {chain : List Block} {cache : ProofCache}
    (apart : ∀ i j, i < bound → j < bound → i ≠ j →
      hashHex V (txs i) ≠ hashHex V (txs j) ∧
        ∀ key ∈ spendKeys V (txs i), key ∉ spendKeys V (txs j))
    (chained : Chained V (Admitted V) chain) (validating : CacheRun V chain cache)
    (passed : ∀ i < bound, precheck false
      (validateStandaloneTx V (replay V chain) cache (txs i)).1 (txs i) = .ok ())
    (unspent : ∀ i < bound, ∀ input ∈ (txs i).inputs,
      (replay V chain).utxoEntry input.outputRef ≠ none)
    (untagged : ∀ i < bound, (txs i).anonInputs = []) (few : bound ≤ maxMempoolTxs)
    (fits : ((List.range bound).map fun i => (txs i).serialize.length).sum ≤ maxMempoolBytes)
    (small : k ≤ bound) : Reachable V (filled V txs k) := by
  induction k with
  | zero => exact Reachable.new
  | succ k ih =>
    have reached := ih (by omega)
    obtain ⟨absent, free⟩ := filled_free apart small reached
    obtain ⟨bytes, count⟩ := @filled_bytes V txs k
    have next := @Reachable.add V (filled V txs k) {} chain chain cache (txs k) 0 0
      (fun _ => sameListing) reached validating chained ?passed
    case passed =>
      have new : (({} : Mempool).txs[hashHex V (txs k)]?).isSome = false := by simp
      rw [new]
      exact passed k (by omega)
    have room : full (filled V txs k) (txs k).serialize.length = false := by
      have front : ((List.range (k + 1)).map fun i => (txs i).serialize.length).sum ≤
          ((List.range bound).map fun i => (txs i).serialize.length).sum :=
        ((List.range_sublist.mpr small).map _).sum_le_sum fun _ _ => Nat.zero_le _
      rw [List.range_succ, List.map_append, List.sum_append, List.map_singleton,
        List.sum_singleton] at front
      rw [full, Bool.or_eq_false_iff]
      exact ⟨decide_eq_false (by omega), decide_eq_false (by rw [bytes]; omega)⟩
    rw [addLocked_free 0 _ (filled_young (fun i j first second other =>
      (apart i j first second other).1) (by omega)) absent (unspent k (by omega))
      (untagged k (by omega)) free room] at next
    exact next

end Filled

/-! ## A pool that is almost full -/

/-- Sixteen that nearly fill the pool, a small one, and one for which no room is left. -/
def sizeAt (i : Nat) : Nat :=
  if i < 16 then 2_097_052 else if i = 16 then 528 else 2_528

/-- The fee rate of the transaction that comes in at a place. -/
def rateAt (i : Nat) : Nat :=
  if i < 16 then 3000 else if i = 16 then 1000 else 2000

/-- The fee that the rate makes of its size. -/
def feeAt (i : Nat) : UInt64 := UInt64.ofNat (rateAt i * sizeAt i)

/-- The transaction that comes in at a place. -/
def waiting (i : Nat) : Transaction :=
  padded (i + 1) (paidAt (i + 1)) (feeAt i) (sizeAt i - 528)

theorem sizeAt_bounds (i : Nat) : 528 ≤ sizeAt i ∧ sizeAt i ≤ 2_097_052 := by
  unfold sizeAt
  split_ifs <;> omega

theorem rateAt_bounds (i : Nat) : 1000 ≤ rateAt i ∧ rateAt i ≤ 3000 := by
  unfold rateAt
  split_ifs <;> omega

theorem toNat_feeAt (i : Nat) :
    (feeAt i).toNat = rateAt i * sizeAt i ∧ rateAt i * sizeAt i ≤ 3000 * 2_097_052 := by
  have bound := Nat.mul_le_mul (rateAt_bounds i).2 (sizeAt_bounds i).2
  exact ⟨by rw [feeAt, UInt64.toNat_ofNat', Nat.mod_eq_of_lt (by omega)], bound⟩

theorem waiting_size (i : Nat) : (waiting i).serialize.length = sizeAt i := by
  rw [waiting, padded_size]
  have bounds := sizeAt_bounds i
  omega

theorem waiting_rate (i : Nat) : rateOf (waiting i) (sizeAt i) = UInt64.ofNat (rateAt i) := by
  have size := sizeAt_bounds i
  have rate := rateAt_bounds i
  have fee := toNat_feeAt i
  change feeAt i / UInt64.ofNat (max 1 (sizeAt i)) = _
  rw [← UInt64.toNat_inj, UInt64.toNat_div, fee.1, UInt64.toNat_ofNat', UInt64.toNat_ofNat',
    Nat.max_eq_right (by omega), Nat.mod_eq_of_lt (by omega), Nat.mod_eq_of_lt (by omega),
    Nat.mul_div_cancel _ (by omega)]

theorem hashHex_waiting (i : Nat) : hashHex refNet (waiting i) = hexstr (payoutKey (i + 1)) := by
  rw [hashHex, waiting, padded_hash]

theorem keys_waiting (i : Nat) : spendKeys refNet (waiting i) =
    [payoutKey (i + 1), ascii "tag:" ++ payoutKey (i + 1)] :=
  padded_keys

/-- No two of them share a name or a key. -/
theorem waiting_apart {i j : Nat} (first : i < 100) (second : j < 100) (apart : i ≠ j) :
    hashHex refNet (waiting i) ≠ hashHex refNet (waiting j) ∧
      ∀ key ∈ spendKeys refNet (waiting i), key ∉ spendKeys refNet (waiting j) := by
  have keys : payoutKey (i + 1) ≠ payoutKey (j + 1) := by
    intro same
    have equal := payoutKey_inj (by omega) (by omega) same
    omega
  rw [hashHex_waiting, hashHex_waiting, keys_waiting, keys_waiting]
  refine ⟨fun same => keys (hexstr_injective same), ?_⟩
  have label : (ascii "tag:").length = 4 := by decide
  have lengths : ∀ j k, payoutKey j ≠ ascii "tag:" ++ payoutKey k := by
    intro j k same
    have widths := congrArg List.length same
    rw [List.length_append, payoutKey_length, payoutKey_length, label] at widths
    omega
  intro key listed clash
  simp only [List.mem_cons, List.not_mem_nil, or_false] at listed clash
  rcases listed with rfl | rfl <;> rcases clash with same | same
  · exact keys same
  · exact lengths _ _ same
  · exact lengths _ _ same.symm
  · exact keys (List.append_cancel_left same)

/-- All of them are valid where the coins are mature. -/
theorem waiting_standalone {i : Nat} (listed : i < 18) :
    (validateStandaloneTx refNet (replay refNet (branch 80)) ∅ (waiting i)).1 = .ok () ∧
      (replay refNet (branch 80)).utxoEntry (payoutKey (i + 1)) ≠ none := by
  have idle := @branch_idle 80 (by decide)
  have stores : (replay refNet (branch 80)).Stores refNet (chainLists refNet (branch 80)) :=
    (idle.chained.mono fun L b => Verified.admitted).stores
  obtain ⟨spent, tags, coins⟩ := @branch_lists 80 (by decide)
  obtain ⟨index, minted⟩ := coins (i + 1) (Nat.succ_pos i) (by omega)
  have unspent : (replay refNet (branch 80)).spent.has (hexstr (payoutKey (i + 1))) = false := by
    rw [← Bool.not_eq_true, stores.spent.has, spent]
    exact List.not_mem_nil
  have untagged : (replay refNet (branch 80)).tags.has (hexstr (payoutKey (i + 1))) = false := by
    rw [← Bool.not_eq_true, stores.tags.has, tags]
    exact List.not_mem_nil
  have coin : (replay refNet (branch 80)).utxoEntry (payoutKey (i + 1)) =
      some ⟨payoutKey (i + 1), Forge.shown (paidAt (i + 1)), i + 1, true, 0, index⟩ := by
    rw [Ledger.utxoEntry, unspent]
    exact (stores.coins.lookup _ _).mpr ⟨minted, rfl⟩
  have unused : ∀ k ≤ (branch 80).length, payoutKey k ≠ payoutKey 1000 := by
    intro k below same
    have equal := payoutKey_inj (by rw [length_branch] at below; omega) (by omega) same
    rw [length_branch] at below
    omega
  have new := @key_new refNet _ _ stores (payoutKey 1000)
    (fun made member same => by
      obtain ⟨k, below, key⟩ := idle.coins made member
      exact unused k below (key.symm.trans same))
    (fun member => by
      obtain ⟨k, below, key⟩ := idle.primes _ member
      exact unused k below (hexstr_injective key).symm)
  have size := sizeAt_bounds i
  have fee := toNat_feeAt i
  have rate := rateAt_bounds i
  have rewarded := (reward_spec (replay refNet (branch (i + 1 - 1)))).2.1
  obtain ⟨result, valid⟩ := @padded_valid (i + 1) (sizeAt i - 528) (paidAt (i + 1)) (feeAt i)
    (replay refNet (branch 80)) index 81 coin untagged
    (by unfold Config.coinbaseMaturity; omega) (by omega)
    (by rw [Nat.add_sub_cancel' size.1, fee.1, Nat.mul_comm]; exact Nat.mul_le_mul_right _ rate.1)
    (by
      rw [UInt64.le_iff_toNat_le, fee.1]
      change _ ≤ (reward (replay refNet (branch (i + 1 - 1)))).toNat
      omega)
    new
  have length := idle.length
  rw [length_branch] at length
  exact ⟨standalone_of_valid idle.chained length valid, by rw [coin]; rintro ⟨⟩⟩

theorem waiting_checked {i : Nat} (listed : i < 18) :
    precheck false (validateStandaloneTx refNet (replay refNet (branch 80)) ∅ (waiting i)).1
      (waiting i) = .ok () := by
  have size := sizeAt_bounds i
  have rate := rateAt_bounds i
  have fee := toNat_feeAt i
  rw [(waiting_standalone listed).1]
  refine precheck_ok ?_ (Forge.fee_covers ?_ ?_).2 rfl rfl
  · rw [waiting_size, maxTxBytes]
    omega
  · rw [waiting_size]
    omega
  · rw [waiting_size, Nat.mul_comm]
    change _ ≤ (feeAt i).toNat
    rw [fee.1]
    exact Nat.mul_le_mul_right _ rate.1

theorem waiting_unspent {i : Nat} (listed : i < 18) :
    ∀ input ∈ (waiting i).inputs, (replay refNet (branch 80)).utxoEntry input.outputRef ≠ none := by
  obtain ⟨ownership, equality, inputs⟩ :=
    @padded_inputs (i + 1) (sizeAt i - 528) (paidAt (i + 1)) (feeAt i)
  intro input member
  rw [waiting, inputs] at member
  obtain rfl := List.mem_singleton.mp member
  exact (waiting_standalone listed).2

theorem waiting_lengths (k : Nat) :
    ((List.range k).map fun i => (waiting i).serialize.length) = (List.range k).map sizeAt :=
  List.map_congr_left fun i _ => waiting_size i

theorem filled_waiting {k : Nat} (listed : k ≤ 17) : Reachable refNet (filled refNet waiting k) := by
  have idle := @branch_idle 80 (by decide)
  refine @filled_reachable refNet waiting k 17 _ _
    (fun i j first second => waiting_apart (by omega) (by omega))
    (idle.chained.mono fun L b => Verified.admitted) idle.chained.cacheRun
    (fun i below => waiting_checked (by omega)) (fun i below => waiting_unspent (by omega))
    (fun i below => rfl) (by decide) ?_ listed
  rw [waiting_lengths]
  simp [List.range_succ, sizeAt, maxMempoolBytes]

/-- The pool that is almost full. -/
def pool : Mempool := filled refNet waiting 17

/-- Those that pay at least the incoming rate are the sixteen. -/
theorem paying_pool : paying pool.txs (UInt64.ofNat (rateAt 17)) =
    (filled refNet waiting 16).txs := by
  have absent := (filled_free (fun i j first second => waiting_apart (by omega) (by omega))
    (Nat.lt_succ_self 16) (filled_waiting (by decide))).1
  refine Std.ExtTreeMap.ext_getElem? fun {id} => ?_
  rw [paying, Std.ExtTreeMap.getElem?_filter', pool, filled, inserted, OrdMap.lookup_insert]
  split_ifs with same
  · have low : (pending refNet 0 (waiting 16)).feeRate = UInt64.ofNat (rateAt 16) := by
      rw [← waiting_rate, ← waiting_size]
      rfl
    rw [← same, absent]
    refine Option.filter_some_neg ?_
    rw [low]
    decide
  · cases found : (filled refNet waiting 16).txs[id]? with
    | none => rfl
    | some e =>
      refine Option.filter_some_pos (decide_eq_true ?_)
      obtain ⟨i, below, -, entry⟩ := (@filled_txs refNet waiting _ 100
        (fun i j first second other => (waiting_apart first second other).1) (by decide) _ _).mp found
      have high : (pending refNet 0 (waiting i)).feeRate = UInt64.ofNat (rateAt i) := by
        rw [← waiting_rate, ← waiting_size]
        rfl
      have rate : rateAt i = 3000 := if_pos below
      rw [entry, high, rate]
      decide

theorem small_evicted {m : Mempool} (rest : m.txs = paying pool.txs (UInt64.ofNat (rateAt 17))) :
    m.txs[hashHex refNet (waiting 16)]? = none := by
  rw [rest, paying_pool, Option.eq_none_iff_forall_ne_some]
  intro e found
  obtain ⟨i, below, same, -⟩ := (@filled_txs refNet waiting _ 18 (fun i j first second other =>
    (waiting_apart (by omega) (by omega) other).1) (by decide) _ _).mp found
  exact (waiting_apart (by decide) (by omega) (Nat.ne_of_gt below)).1 same

/-- **Evicted for nothing.** The small transaction is gone although the one that it had to make
room for is refused. -/
theorem evicted_for_nothing :
    let result := add refNet false
      (validateStandaloneTx refNet (replay refNet (branch 80)) ∅ (waiting 17)).1
      (replay refNet (branch 80)) 0 0 (fun _ => sameListing) pool (waiting 17)
    Reachable refNet pool ∧ result.1 = .error "mempool: full" ∧
      expireLocked refNet 0 pool = pool ∧
      pool.txs[hashHex refNet (waiting 16)]? = some (pending refNet 0 (waiting 16)) ∧
      result.2.txs[hashHex refNet (waiting 16)]? = none := by
  have reached : Reachable refNet pool := filled_waiting (Nat.le_refl 17)
  have apart : ∀ i j, i < 18 → j < 18 → i ≠ j →
      hashHex refNet (waiting i) ≠ hashHex refNet (waiting j) ∧
        ∀ key ∈ spendKeys refNet (waiting i), key ∉ spendKeys refNet (waiting j) :=
    fun i j first second => waiting_apart (by omega) (by omega)
  have listed := fun k small => @filled_txs refNet waiting k 18
    (fun i j first second other => (apart i j first second other).1) small
  have fresh : expireLocked refNet 0 pool = pool :=
    expireLocked_fresh (filled_young (fun i j first second other =>
      (apart i j first second other).1) (by decide))
  obtain ⟨absent, free⟩ : pool.txs[hashHex refNet (waiting 17)]? = none ∧
      ∀ key ∈ spendKeys refNet (waiting 17), pool.spentBy[key]? = none :=
    filled_free apart (by decide : 17 < 18) reached
  have noConflicts : conflictsOf refNet pool (waiting 17) = [] := by
    rw [conflictsOf, List.filterMap_eq_nil_iff.mpr free, List.dedup_nil]
  have accepted : ¬Refused refNet (replay refNet (branch 80)) (expireLocked refNet 0 pool)
      (waiting 17) := by
    rw [fresh]
    rintro (present | spent | tagged | ⟨conflict, -⟩)
    · rw [absent] at present
      exact Bool.false_ne_true present
    · obtain ⟨input, member, gone⟩ := List.any_eq_true.mp spent
      exact waiting_unspent (by decide) input member (Option.isNone_iff_eq_none.mp gone)
    · exact Bool.false_ne_true tagged
    · exact conflict noConflicts
  have named : ∀ (id : Bytes) (e : Entry), pool.txs[id]? = some e → id ≠ [] := by
    rintro id e found rfl
    obtain ⟨i, -, same, -⟩ := (listed 17 (by decide) _ _).mp found
    have length := congrArg List.length same
    rw [hashHex_waiting, Forge.length_hexstr, payoutKey_length] at length
    cases length
  have size : (waiting 17).serialize.length = sizeAt 17 := waiting_size 17
  have rate : rateOf (waiting 17) (sizeAt 17) = UInt64.ofNat (rateAt 17) := waiting_rate 17
  have tight : crowded (paying pool.txs (UInt64.ofNat (rateAt 17))) (sizeAt 17) := by
    have bytes := (filled_waiting (k := 16) (by decide)).indexed.bytes
    rw [(filled_bytes 16).1, waiting_lengths] at bytes
    rw [paying_pool]
    right
    rw [← Int.ofNat_inj.mp bytes]
    simp [List.range_succ, sizeAt, maxMempoolBytes]
  obtain ⟨fails, left⟩ := makeRoom_fails_iff reached.indexed named (fun _ => sameListing)
    (UInt64.ofNat (rateAt 17)) (sizeAt 17)
  have refused := fails.mpr tight
  have rest := left refused
  obtain ⟨failed, same⟩ := add_full 0 (waiting_checked (by decide : 17 < 18)) accepted
    (by rw [fresh]; exact noConflicts)
    (by rw [fresh, size, rate]; exact refused : (makeRoom refNet (fun _ => sameListing) _ _ _).1 =
      false)
  rw [fresh, size, rate] at same
  have held : pool.txs[hashHex refNet (waiting 16)]? = some (pending refNet 0 (waiting 16)) :=
    (listed 17 (by decide) _ _).mpr ⟨16, by decide, rfl, rfl⟩
  exact ⟨reached, failed, fresh, held, small_evicted (by rw [same, rest])⟩

end Obscura.Mempool
