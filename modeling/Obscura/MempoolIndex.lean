import Obscura.CacheSoundness
import Obscura.Mempool
import Obscura.SwapReorg

/-! # The index of the mempool

In every mempool a node can reach, the index lists exactly the spend keys of the pooled
transactions, the byte count is the sum of their sizes and the limits hold. Every
operation is a sequence of deletions, followed at admission by one insertion whose keys
the deletions have freed; the invariant is proved for these two.
-/

namespace Obscura.Mempool

open Wire Tx Checked

/-! ## Runs -/

/-- The mempools of a node. Admission reads the chain before it takes the lock and again
under it; other calls may run in between, and the chain may move. -/
inductive Reachable (V : Primitives) : Mempool → Prop
  | new : Reachable V {}
  | add {m early : Mempool} {before after : List Block} {cache : ProofCache} {t : Transaction}
      (now added : Int) (listings : Nat → Listing) (reached : Reachable V m)
      (validating : CacheRun V before cache) (current : Chained V (Admitted V) after)
      (passed : precheck (early.txs[hashHex V t]?).isSome
        (validateStandaloneTx V (replay V before) cache t).1 t = .ok ()) :
      Reachable V (addLocked V (replay V after) now added listings m t).2
  | remove {m : Mempool} (txs : List Transaction) (reached : Reachable V m) :
      Reachable V (remove V m txs)
  | select {m : Mempool} (now : Int) (n : Nat) (reached : Reachable V m) :
      Reachable V (select V now m n).2
  | expire {m : Mempool} (now : Int) (reached : Reachable V m) :
      Reachable V (expireLocked V now m)

/-- The index invariant. -/
structure Indexed (V : Primitives) (m : Mempool) : Prop where
  entries : ∀ id e, m.txs[id]? = some e →
    e.id = id ∧ hashHex V e.tx = id ∧ e.size = e.tx.serialize.length
  owners : Reservation.Inverts (fun e : Entry => spendKeys V e.tx) m.txs m.spentBy
  bytes : m.curBytes = (OrdMap.total Entry.size m.txs : Nat)
  count : m.txs.size ≤ maxMempoolTxs
  room : m.curBytes ≤ maxMempoolBytes

section Steps

variable {V : Primitives} {m : Mempool}

theorem Indexed.new (V : Primitives) : Indexed V {} where
  entries := by simp
  owners := Reservation.Inverts.empty
  bytes := by simp
  count := by simp [maxMempoolTxs]
  room := by simp [maxMempoolBytes]

/-! ## Deletions -/

/-- A deletion keeps the index. -/
theorem Indexed.delete (indexed : Indexed V m) (id : Bytes) :
    Indexed V (deleteLocked V m id) := by
  cases found : m.txs[id]? with
  | none =>
    rw [deleteLocked, found]
    exact indexed
  | some e =>
    have smaller := deleteLocked_size V found
    have weight := OrdMap.total_erase Entry.size m.txs found
    have bytes := indexed.bytes
    have count := indexed.count
    have room := indexed.room
    rw [deleteLocked, found] at smaller ⊢
    dsimp only at smaller ⊢
    constructor
    case entries =>
      intro other entry kept
      change (m.txs.erase id)[other]? = some entry at kept
      rw [OrdMap.lookup_erase] at kept
      split_ifs at kept
      exact indexed.entries other entry kept
    case owners => exact indexed.owners.release found
    case bytes =>
      dsimp only
      omega
    case count =>
      dsimp only
      omega
    case room =>
      dsimp only
      omega

theorem Indexed.deleteAll (indexed : Indexed V m) (ids : List Bytes) :
    Indexed V (deleteAll V m ids) := by
  induction ids generalizing m with
  | nil => exact indexed
  | cons id ids ih => exact ih (indexed.delete id)

theorem deleteLocked_txs (m : Mempool) (id other : Bytes) :
    (deleteLocked V m id).txs[other]? = if id = other then none else m.txs[other]? := by
  cases found : m.txs[id]? with
  | none =>
    rw [deleteLocked, found]
    dsimp only
    split_ifs with same
    · rw [← same, found]
    · rfl
  | some e =>
    rw [deleteLocked, found]
    exact OrdMap.lookup_erase m.txs id other

theorem deleteAll_txs (m : Mempool) (ids : List Bytes) (other : Bytes) :
    (Mempool.deleteAll V m ids).txs[other]? = if other ∈ ids then none else m.txs[other]? := by
  induction ids generalizing m with
  | nil => simp [Mempool.deleteAll]
  | cons id ids ih =>
    change (Mempool.deleteAll V (deleteLocked V m id) ids).txs[other]? = _
    rw [ih, deleteLocked_txs]
    by_cases later : other ∈ ids
    · simp [later]
    · by_cases same : id = other
      · simp [same]
      · simp [same, Ne.symm same, later]

theorem Indexed.expire (indexed : Indexed V m) (now : Int) : Indexed V (expireLocked V now m) :=
  indexed.deleteAll _

theorem Indexed.remove (indexed : Indexed V m) (txs : List Transaction) :
    Indexed V (remove V m txs) :=
  (indexed.deleteAll _).deleteAll _

/-! ## Admission -/

/-- Making room only deletes, and says whether there is room now. -/
theorem makeRoom_spec (indexed : Indexed V m) (listings : Nat → Listing) (rate : UInt64)
    (size : Nat) :
    Indexed V (makeRoom V listings rate size m).2 ∧
      (∀ (id : Bytes) (e : Entry),
        (makeRoom V listings rate size m).2.txs[id]? = some e → m.txs[id]? = some e) ∧
      ((makeRoom V listings rate size m).1 = true →
        full (makeRoom V listings rate size m).2 size = false) := by
  induction m using makeRoom.induct V listings rate with
  | size => exact size
  | case1 m crowded none =>
    rw [makeRoom, if_pos crowded]
    split
    · exact ⟨indexed, fun _ _ found => found, fun impossible => absurd impossible (by simp)⟩
    · next some => simp [none] at some
  | case2 m crowded m' evicted ih =>
    obtain ⟨id, e, found, -, rfl⟩ := evictLowestLocked_some V evicted
    obtain ⟨kept, below, room⟩ := ih (indexed.delete id)
    rw [makeRoom, if_pos crowded]
    split
    · next none => simp [evicted] at none
    · next same =>
      rw [evicted] at same
      obtain rfl := Option.some.inj same
      refine ⟨kept, ?_, room⟩
      intro other entry there
      have old := below other entry there
      rw [deleteLocked_txs] at old
      split_ifs at old
      exact old
  | case3 m fits =>
    rw [makeRoom, if_neg fits]
    exact ⟨indexed, fun _ _ found => found, fun _ => by simpa using fits⟩

/-- Insertion of a transaction that conflicts with nothing. -/
theorem Indexed.insert (indexed : Indexed V m) {id : Bytes} {t : Transaction} {size : Nat}
    {added : Int} {rate : UInt64} (named : hashHex V t = id) (sized : size = t.serialize.length)
    (absent : m.txs[id]? = none) (free : ∀ key ∈ spendKeys V t, m.spentBy[key]? = none)
    (fits : full m size = false) :
    Indexed V {
      txs := m.txs.insert id ⟨id, t, size, added, rate⟩
      spentBy := Reservation.reserve m.spentBy id (spendKeys V t)
      curBytes := m.curBytes + size } := by
  have weight := OrdMap.total_insert Entry.size m.txs ⟨id, t, size, added, rate⟩ absent
  have bytes := indexed.bytes
  have grown := Std.ExtTreeMap.size_insert_le (t := m.txs) (k := id)
    (v := ⟨id, t, size, added, rate⟩)
  simp only [full, Bool.or_eq_false_iff, decide_eq_false_iff_not] at fits
  constructor
  case entries =>
    intro key other found
    change (m.txs.insert id ⟨id, t, size, added, rate⟩)[key]? = some other at found
    rw [OrdMap.lookup_insert] at found
    split_ifs at found with here
    · obtain rfl := Option.some.inj found
      exact ⟨here, named.trans here, sized⟩
    · exact indexed.entries key other found
  case owners => exact indexed.owners.reserve absent free
  case bytes =>
    dsimp only at weight ⊢
    omega
  case count =>
    dsimp only
    omega
  case room =>
    dsimp only
    omega

/-- An admission keeps the index. -/
theorem Indexed.add (indexed : Indexed V m) (L : Ledger) (now added : Int)
    (listings : Nat → Listing) (t : Transaction) :
    Indexed V (addLocked V L now added listings m t).2 := by
  have fresh := indexed.expire now
  unfold addLocked
  dsimp only
  generalize expireLocked V now m = pool at fresh ⊢
  generalize (if conflictsOf V pool t = [] then _ else _ : Check Unit) = replaced
  split_ifs with present spent tagged
  · exact fresh
  · exact fresh
  · exact fresh
  · rw [Bool.not_eq_true, Option.isSome_eq_false_iff, Option.isNone_iff_eq_none] at present
    split
    · exact fresh
    · have cleared := fresh.deleteAll (conflictsOf V pool t)
      obtain ⟨kept, below, room⟩ := makeRoom_spec cleared listings
        (rateOf t t.serialize.length) t.serialize.length
      split
      · next refused =>
        rw [refused] at kept
        exact kept
      · next granted =>
        rw [granted] at kept below room
        -- Whoever owned a key of the transaction is gone.
        have free : ∀ key ∈ spendKeys V t, ∀ (id : Bytes) (e : Entry), key ∈ spendKeys V e.tx →
            (Mempool.deleteAll V pool (conflictsOf V pool t)).txs[id]? ≠ some e := by
          intro key listed id e held found
          rw [deleteAll_txs] at found
          split_ifs at found with conflict
          refine conflict ?_
          have owner := (fresh.owners key id).mpr ⟨e, found, held⟩
          exact List.mem_dedup.mpr (List.mem_filterMap.mpr ⟨key, listed, owner⟩)
        refine kept.insert rfl rfl ?_ ?_ (room rfl)
        · rw [Option.eq_none_iff_forall_ne_some]
          intro e found
          have old := below _ e found
          rw [deleteAll_txs] at old
          split_ifs at old
          rw [present] at old
          exact absurd old (Option.some_ne_none e).symm
        · intro key listed
          rw [Option.eq_none_iff_forall_ne_some]
          intro id owned
          obtain ⟨e, found, held⟩ := (kept.owners key id).mp owned
          exact free key listed id e held (below id e found)

theorem Reachable.indexed (reached : Reachable V m) : Indexed V m := by
  induction reached with
  | new => exact Indexed.new V
  | add now added listings _ _ _ _ ih => exact ih.add _ now added listings _
  | remove txs _ ih => exact ih.remove txs
  | select now n _ ih => exact ih.expire now
  | expire now _ ih => exact ih.expire now

/-- **The index of the mempool.** -/
theorem mempool_index_exact (reached : Reachable V m) :
    (∀ key id, m.spentBy[key]? = some id ↔
      ∃ e, m.txs[id]? = some e ∧ key ∈ spendKeys V e.tx) ∧
    (∀ (id id' : Bytes) (e e' : Entry), m.txs[id]? = some e → m.txs[id']? = some e' →
      ∀ key ∈ spendKeys V e.tx, key ∈ spendKeys V e'.tx → id = id') ∧
    (∀ (id : Bytes) (e : Entry), m.txs[id]? = some e →
      id = hashHex V e.tx ∧ e.size = e.tx.serialize.length) ∧
    m.curBytes = (OrdMap.total Entry.size m.txs : Nat) ∧
    m.txs.size ≤ maxMempoolTxs ∧ m.curBytes ≤ maxMempoolBytes := by
  have indexed := reached.indexed
  refine ⟨indexed.owners, ?_, ?_, indexed.bytes, indexed.count, indexed.room⟩
  · intro id id' e e' found found' key held held'
    exact indexed.owners.apart found found' held held'
  · intro id e found
    obtain ⟨_, named, sized⟩ := indexed.entries id e found
    exact ⟨named.symm, sized⟩

end Steps

/-! ## One transaction -/

/-- A mempool with one transaction. -/
def single (V : Primitives) (added : Int) (t : Transaction) : Mempool where
  txs := (∅ : GoMap Entry).insert (hashHex V t)
    ⟨hashHex V t, t, t.serialize.length, added, rateOf t t.serialize.length⟩
  spentBy := Reservation.reserve ∅ (hashHex V t) (spendKeys V t)
  curBytes := t.serialize.length

section Forge

open Testnet Forge

theorem expireLocked_fresh {V : Primitives} {m : Mempool} {now : Int}
    (young : ∀ (id : Bytes) (e : Entry), m.txs[id]? = some e → now - e.added ≤ txTTL) :
    expireLocked V now m = m := by
  have none : (m.txs.toList.filter fun entry => txTTL < now - entry.2.added) = [] := by
    rw [List.filter_eq_nil_iff]
    rintro ⟨id, e⟩ listed
    have recent := young id e (Std.ExtTreeMap.mem_toList_iff_getElem?_eq_some.mp listed)
    simpa using recent
  rw [expireLocked, none]
  rfl

/-- The entry of a transaction. -/
def pending (V : Primitives) (added : Int) (t : Transaction) : Entry :=
  ⟨hashHex V t, t, t.serialize.length, added, rateOf t t.serialize.length⟩

/-- A mempool with one more transaction. -/
def inserted (V : Primitives) (added : Int) (t : Transaction) (m : Mempool) : Mempool where
  txs := m.txs.insert (hashHex V t) (pending V added t)
  spentBy := Reservation.reserve m.spentBy (hashHex V t) (spendKeys V t)
  curBytes := m.curBytes + t.serialize.length

theorem addLocked_replacing {V : Primitives} {L : Ledger} {m : Mempool} {t : Transaction}
    {now : Int} {conflicts : List Bytes} (added : Int) (listings : Nat → Listing)
    (young : ∀ (id : Bytes) (e : Entry), m.txs[id]? = some e → now - e.added ≤ txTTL)
    (absent : m.txs[hashHex V t]? = none)
    (unspent : ∀ input ∈ t.inputs, L.utxoEntry input.outputRef ≠ none)
    (untagged : t.anonInputs = []) (against : conflictsOf V m t = conflicts)
    (pays : conflicts = [] ∨ checkReplacementLocked m t t.serialize.length conflicts = .ok ())
    (room : full (deleteAll V m conflicts) t.serialize.length = false) :
    addLocked V L now added listings m t =
      (.ok (), inserted V added t (deleteAll V m conflicts)) := by
  have live : (t.inputs.any fun input => (L.utxoEntry input.outputRef).isNone) = false := by
    rw [List.any_eq_false]
    intro input member
    have some := unspent input member
    cases found : L.utxoEntry input.outputRef with
    | none => exact absurd found some
    | some entry => simp
  have replaced : (if conflicts = [] then .ok ()
      else checkReplacementLocked m t t.serialize.length conflicts) = .ok () := by
    split_ifs with none
    · rfl
    · exact pays.resolve_left none
  have roomy : makeRoom V listings (rateOf t t.serialize.length) t.serialize.length
      (deleteAll V m conflicts) = (true, deleteAll V m conflicts) := by
    rw [makeRoom, if_neg (by rw [room]; exact Bool.false_ne_true)]
  unfold addLocked
  dsimp only
  rw [expireLocked_fresh young, against, live, untagged, absent]
  simp only [Option.isSome_none, List.any_nil, Bool.false_eq_true, ↓reduceIte, replaced, roomy]
  rfl

theorem addLocked_free {V : Primitives} {L : Ledger} {m : Mempool} {t : Transaction}
    {now : Int} (added : Int) (listings : Nat → Listing)
    (young : ∀ (id : Bytes) (e : Entry), m.txs[id]? = some e → now - e.added ≤ txTTL)
    (absent : m.txs[hashHex V t]? = none)
    (unspent : ∀ input ∈ t.inputs, L.utxoEntry input.outputRef ≠ none)
    (untagged : t.anonInputs = []) (free : ∀ key ∈ spendKeys V t, m.spentBy[key]? = none)
    (room : full m t.serialize.length = false) :
    addLocked V L now added listings m t = (.ok (), inserted V added t m) := by
  have noConflicts : conflictsOf V m t = [] := by
    rw [conflictsOf, List.filterMap_eq_nil_iff.mpr free, List.dedup_nil]
  exact addLocked_replacing added listings young absent unspent untagged noConflicts (Or.inl rfl)
    room

/-- The first transaction finds room. -/
theorem addLocked_empty {V : Primitives} {L : Ledger} {t : Transaction} (now added : Int)
    (listings : Nat → Listing) (unspent : ∀ input ∈ t.inputs, L.utxoEntry input.outputRef ≠ none)
    (untagged : t.anonInputs = []) (small : t.serialize.length ≤ 10_000) :
    addLocked V L now added listings {} t = (.ok (), single V added t) := by
  have room : full {} t.serialize.length = false := by
    have capacity : 10_000 ≤ maxMempoolBytes :=
      (by decide : 10_000 ≤ 32 * 1024).trans (Nat.le_mul_of_pos_right _ (by decide))
    have fits : (t.serialize.length : Int) ≤ maxMempoolBytes := by
      exact_mod_cast small.trans capacity
    rw [full, Bool.or_eq_false_iff]
    constructor
    · exact decide_eq_false (Nat.not_succ_le_zero _)
    · exact decide_eq_false (by rw [Int.zero_add]; exact Int.not_lt.mpr fits)
  rw [addLocked_free added listings (by simp) (by simp) unspent untagged (by simp) room, inserted,
    single, pending, Int.zero_add]

theorem mulU64_fst (a b : UInt64) : (mulU64 a b).1 = a * b := by
  unfold mulU64
  split_ifs with zero
  · rcases zero with rfl | rfl
    · exact (UInt64.zero_mul).symm
    · exact (UInt64.mul_zero).symm
  · rfl

theorem precheck_ok {present : Bool} {t : Transaction} (small : t.serialize.length ≤ maxTxBytes)
    (paid : ¬ t.fee < (mulU64 (UInt64.ofNat t.serialize.length) Config.minFeePerByte).1)
    (normal : t.isCoinbase = false) (new : present = false) :
    precheck present (.ok ()) t = .ok () := by
  rw [mulU64_fst] at paid
  unfold precheck
  simp only [reject_bind_ok]
  exact ⟨by rw [normal]; exact Bool.false_ne_true, Nat.not_lt.mpr small, paid,
    by rw [new]; exact Bool.false_ne_true, trivial⟩

theorem standalone_of_valid {V : Primitives} {chain : List Block} {t : Transaction}
    {height : Nat} {result : List Bytes × Seen} (chained : Chained V (Verified V) chain)
    (length : (replay V chain).headers.length = height)
    (valid : validateTxLocked V (replay V chain) false t height ⟨[], []⟩ = .ok result) :
    (validateStandaloneTx V (replay V chain) ∅ t).1 = .ok () := by
  have regular := (chained.mono fun L b => Verified.admitted).regular
  have found : (replay V chain).tip? = some _ := List.getLast?_eq_some_getLast regular.started
  have next := regular.tip found
  rw [length] at next
  have miss : proofVerified ∅ (t.hash V) = false := by simp [proofVerified]
  refine (validateStandaloneTx_ok V _).mpr ⟨_, result, found, ?_⟩
  rw [miss, next]
  exact valid

theorem Net.standalone {chain : List Block} (state : Net chain) {t : Transaction}
    {result : List Bytes × Seen}
    (valid : validateTxLocked net (replay net chain) false t (chain.length + 1) ⟨[], []⟩ =
      .ok result) :
    (validateStandaloneTx net (replay net chain) ∅ t).1 = .ok () :=
  standalone_of_valid state.chained state.length valid

/-- A listing in the order of the map. -/
def sameListing : Listing := ⟨id, fun _ => List.Perm.refl _⟩

theorem Net.single_reachable {chain : List Block} (state : Net chain) {t : Transaction}
    (valid : (validateStandaloneTx net (replay net chain) ∅ t).1 = .ok ())
    (small : t.serialize.length ≤ 10_000) (fee : t.fee = toll) (normal : t.isCoinbase = false)
    (unspent : ∀ input ∈ t.inputs, (replay net chain).utxoEntry input.outputRef ≠ none)
    (untagged : t.anonInputs = []) : Reachable net (single net 0 t) := by
  have reached := @Reachable.add net {} {} chain chain ∅ t 0 0 (fun _ => sameListing)
    Reachable.new state.chained.cacheRun (state.chained.mono fun L b => Verified.admitted) ?passed
  case passed =>
    rw [valid]
    refine precheck_ok (small.trans (by decide)) ?_ normal (by simp)
    rw [fee]
    exact (toll_enough small).2
  rw [addLocked_empty 0 0 (fun _ => sameListing) unspent untagged small] at reached
  exact reached

/-- A claim of the contract waits for the next block. -/
def claimPool : Mempool := single net 0 (settle false)

theorem claim_window : SwapWindow 62 false locked := by
  change 512 ≤ (574 : UInt64).toNat ∧ 62 ≤ (574 : UInt64).toNat - 512
  decide

theorem claim_standalone :
    (validateStandaloneTx net (replay net base) ∅ (settle false)).1 = .ok () := by
  have stores := (net_base.chained.mono fun L b => Verified.admitted).stores
  obtain ⟨seen, valid⟩ := settle_valid contract_live.1 claim_window
    (key_new stores unpaid_base.1 unpaid_base.2) ⟨List.not_mem_nil, List.not_mem_nil⟩
  have passed : validateTxLocked net (replay net base) false (settle false) (base.length + 1)
      ⟨[], []⟩ = .ok ([payoutKey 0], seen) := by
    rw [length_base]
    exact valid
  exact Net.standalone net_base passed

theorem claimPool_reachable : Reachable net claimPool :=
  Net.single_reachable net_base claim_standalone (settle_size false) rfl rfl (by simp [settle]) rfl

end Forge

/-! ## Payments

On a chain of empty blocks two coins are mature. One is paid, and both together for a higher
fee.
-/

section Payments

open Testnet

/-- The coins of the first two blocks are mature. -/
def restedChain : List Block := mined sample (List.replicate 61 0)

/-- What the miner of a block got. -/
def wage (height : Nat) : UInt64 :=
  reward (replay (primitives sample) (mined sample (List.replicate (height - 1) 0)))

/-- Coins are paid to the key of a number, not signed yet. -/
def unsignedPayment (coins : List Nat) (dest : Nat) (fee : UInt64) : Transaction where
  inputs := coins.map fun born =>
    { outputRef := payoutKey born
      pseudoCommitment := wU64 (wage born) ++ bigEndian 24 0
      keyImage := payoutKey born }
  outputs := [{
    oneTimeKey := payoutKey dest
    txPubKey := zeroHash
    commitment := wU64 ((coins.map wage).sum - fee) ++ bigEndian 24 0 }]
  fee := fee

/-- The payment with its proofs. -/
def signed (t : Transaction) : Transaction :=
  let ctx := t.coreHash (primitives sample)
  { t with
    inputs := t.inputs.map fun input =>
      { input with
        ownershipProof := input.outputRef ++ ctx
        equalityProof := input.pseudoCommitment ++ ctx } }

/-- One coin is paid. -/
def payment (born dest : Nat) : Transaction :=
  signed (unsignedPayment [born] dest 1_000_000)

/-- Both coins are paid, for a higher fee. -/
def merger : Transaction := signed (unsignedPayment [1, 2] 1_001 5_000_000)

/-- The payments that will wait. -/
def payments : List Transaction := [payment 1 1_000, payment 2 1_000, payment 2 1_001, merger]

set_option maxRecDepth 10000 in
theorem payments_valid : ∀ t ∈ payments,
    (validateTxLocked (primitives sample) (replay (primitives sample) restedChain) false t 62
      ⟨[], []⟩).isOk = true ∧ t.serialize.length ≤ 1_000 ∧ t.isCoinbase = false ∧
      t.anonInputs = [] ∧ 1_000_000 ≤ t.fee := by
  decide +kernel

theorem rested_idle : Idle sample restedChain :=
  idle_mined sample_length (List.replicate 61 0) (by simp)

theorem rested_length :
    (replay (primitives sample) restedChain).headers.length = 62 := by
  rw [rested_idle.length, restedChain, length_mined, List.length_replicate]

theorem payment_standalone {t : Transaction} (listed : t ∈ payments) :
    (validateStandaloneTx (primitives sample) (replay (primitives sample) restedChain) ∅ t).1 =
      .ok () := by
  obtain ⟨_, valid⟩ := isOk_iff.mp (payments_valid t listed).1
  exact standalone_of_valid rested_idle.chained rested_length valid

/-- A payment enters a pool whose conflicts with it it pays for. -/
theorem payment_admitted {t : Transaction} (listed : t ∈ payments) {m : Mempool}
    {conflicts : List Bytes} (reached : Reachable (primitives sample) m)
    (young : ∀ (id : Bytes) (e : Entry), m.txs[id]? = some e → e.added = 0)
    (absent : m.txs[hashHex (primitives sample) t]? = none)
    (against : conflictsOf (primitives sample) m t = conflicts)
    (pays : conflicts = [] ∨ checkReplacementLocked m t t.serialize.length conflicts = .ok ())
    (few : (deleteAll (primitives sample) m conflicts).txs.size < maxMempoolTxs)
    (light : (deleteAll (primitives sample) m conflicts).curBytes ≤ 1_000) :
    Reachable (primitives sample)
      (inserted (primitives sample) 0 t (deleteAll (primitives sample) m conflicts)) := by
  obtain ⟨_, small, normal, untagged, fee⟩ := payments_valid t listed
  have valid := payment_standalone listed
  have chained := rested_idle.chained.mono fun L b => Verified.admitted
  have next := @Reachable.add (primitives sample) m {} restedChain restedChain ∅ t 0 0
    (fun _ => sameListing) reached rested_idle.chained.cacheRun chained ?passed
  case passed =>
    rw [valid]
    refine precheck_ok (small.trans (by decide)) ?_ normal (by simp)
    rw [mulU64_fst]
    have floor : (1_000_000 : UInt64).toNat = 1_000_000 := rfl
    have rate : Config.minFeePerByte.toNat = 1000 := by decide
    rw [UInt64.le_iff_toNat_le, floor] at fee
    generalize t.serialize.length = size at small
    have word : size % 2 ^ 64 = size := Nat.mod_eq_of_lt (by omega)
    rw [UInt64.not_lt, UInt64.le_iff_toNat_le, UInt64.toNat_mul, UInt64.toNat_ofNat', rate, word,
      Nat.mod_eq_of_lt (by omega)]
    omega
  rw [addLocked_replacing 0 (fun _ => sameListing) ?_ absent ?_ untagged against pays ?_] at next
  · exact next
  · intro id e found
    rw [young id e found]
    decide
  · intro input member
    obtain ⟨tip, result, _, passed⟩ := (validateStandaloneTx_ok (primitives sample) _).mp valid
    obtain ⟨_, _, _, _, facts⟩ := validateTx_classical chained.regular.noPQOutput passed
    obtain ⟨_, entry, found, _⟩ := facts.inputs input member
    rw [found]
    exact Option.some_ne_none entry
  · unfold full maxMempoolBytes
    simp only [Bool.or_eq_false_iff, decide_eq_false_iff_not, not_le, not_lt]
    omega

/-- One of the payments waits. -/
def lonePool : Mempool := inserted (primitives sample) 0 (payment 1 1_000) {}

theorem lonePool_reachable : Reachable (primitives sample) lonePool :=
  payment_admitted List.mem_cons_self Reachable.new (by simp) (by simp) (by simp [conflictsOf])
    (Or.inl rfl) (by simp [deleteAll, maxMempoolTxs]) (by simp [deleteAll])

theorem lonePool_entries {id : Bytes} {e : Entry} (found : lonePool.txs[id]? = some e) :
    e = pending (primitives sample) 0 (payment 1 1_000) := by
  change ((∅ : GoMap Entry).insert _ _)[id]? = some e at found
  rw [OrdMap.lookup_insert] at found
  split_ifs at found
  · exact (Option.some.inj found).symm
  · simp at found

/-- The payment of both coins has taken its place. -/
def mergedPool : Mempool :=
  inserted (primitives sample) 0 merger
    (deleteAll (primitives sample) lonePool [hashHex (primitives sample) (payment 1 1_000)])

set_option maxRecDepth 10000 in
theorem merger_apart :
    hashHex (primitives sample) merger ≠ hashHex (primitives sample) (payment 1 1_000) ∧
      ∀ born ∈ [1, 2], payoutKey born ∈ spendKeys (primitives sample) merger := by
  decide +kernel

set_option maxRecDepth 10000 in
theorem merger_replaces :
    let conflicts := [hashHex (primitives sample) (payment 1 1_000)]
    conflictsOf (primitives sample) lonePool merger = conflicts ∧
      (checkReplacementLocked lonePool merger merger.serialize.length conflicts).isOk = true ∧
      (deleteAll (primitives sample) lonePool conflicts).txs.size = 0 ∧
      (deleteAll (primitives sample) lonePool conflicts).curBytes = 0 := by
  decide +kernel

theorem mergedPool_reachable : Reachable (primitives sample) mergedPool := by
  obtain ⟨against, pays, size, bytes⟩ := merger_replaces
  obtain ⟨_, paid⟩ := isOk_iff.mp pays
  refine payment_admitted (by simp [payments]) lonePool_reachable ?_ ?_ against (Or.inr paid) ?_ ?_
  · intro id e found
    rw [lonePool_entries found]
    rfl
  · change ((∅ : GoMap Entry).insert _ _)[_]? = none
    rw [OrdMap.lookup_insert, if_neg merger_apart.1.symm]
    simp
  · rw [size]
    decide
  · rw [bytes]
    decide

/-- After the replacement the index lists both coins under the new payment, and the old one is
gone. -/
theorem merger_indexed :
    mergedPool.txs[hashHex (primitives sample) (payment 1 1_000)]? = none ∧
      (∀ born ∈ [1, 2], mergedPool.spentBy[payoutKey born]? =
        some (hashHex (primitives sample) merger)) ∧
      mergedPool.curBytes = (OrdMap.total Entry.size mergedPool.txs : Nat) := by
  obtain ⟨owners, _, _, bytes, _⟩ := mempool_index_exact mergedPool_reachable
  obtain ⟨apart, keys⟩ := merger_apart
  refine ⟨?_, fun born listed => ?_, bytes⟩
  · change ((deleteAll _ lonePool _).txs.insert _ _)[_]? = none
    rw [OrdMap.lookup_insert, if_neg apart, deleteAll_txs, if_pos List.mem_cons_self]
  · exact (owners _ _).mpr ⟨_, Std.ExtTreeMap.getElem?_insert_self, keys born listed⟩

end Payments

end Obscura.Mempool
