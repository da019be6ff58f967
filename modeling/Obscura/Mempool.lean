import Mathlib
import Obscura.Decode
import Obscura.ProofCache
import Obscura.Lib.Reservation

/-! # The mempool

Pending transactions, the spend keys they reserve, replacement by fee, eviction and
selection for a block. The mutex makes everything after the first checks of `Add` one
step. A call takes the clock values it reads as arguments, and where the order in which a
map is listed decides what happens, that order as well.
-/

namespace Obscura

open Wire Tx Checked

namespace Mempool

/-- The transactions that the pool holds at most. -/
def maxMempoolTxs : Nat := 5000

/-- The bytes that they take at most. -/
def maxMempoolBytes : Nat := 32 * 1024 * 1024
/-- Two hours, in nanoseconds. -/
def txTTL : Int := 2 * 60 * 60 * 1_000_000_000

/-- What a template leaves free for the coinbase. -/
def coinbaseReserveBytes : Nat := 64 * 1024

/-- The transactions that one may replace. -/
def maxReplacementConflicts : Nat := 100

/-- A waiting transaction with its size, the time it came in and its fee rate. -/
structure Entry where
  id : Bytes
  tx : Transaction
  size : Nat
  added : Int
  feeRate : UInt64

end Mempool

/-- The waiting transactions, the items that each of them spends and their bytes. -/
structure Mempool where
  txs : GoMap Mempool.Entry := ∅
  spentBy : GoMap Bytes := ∅
  curBytes : Int := 0

namespace Mempool

section Operations

variable (V : Primitives)

/-- The id as the pool's key. -/
def hashHex (t : Transaction) : Bytes := hexstr (t.hash V)

/-- A transparent input conflicts on its output and on its key image. -/
def inputKeys (input : Input) : List Bytes :=
  input.outputRef ::
    if input.keyImage.length = 32 then [ascii "tag:" ++ recordedTag V input.keyImage] else []

/-- An anonymous input conflicts on its tag. -/
def anonKey (input : AnonInput) : Bytes := ascii "tag:" ++ recordedTag V input.tag

/-- A claim or refund conflicts on its contract. -/
def swapKey (input : SwapIn) : Bytes := ascii "swap:" ++ input.swapKey

/-- A withdrawal conflicts on its vault. -/
def vaultKey (input : VaultIn) : Bytes := ascii "vaultin:" ++ input.vaultKey

/-- A note spend conflicts on its nullifier. -/
def zkKey (input : ZKInput) : Bytes := ascii "zknull:" ++ input.nullifier

/-- A confidential spend shares the nullifiers of the notes. -/
def czkKey (spend : CZKSpend) : Bytes := ascii "zknull:" ++ spend.nullifier

/-- A post-quantum input conflicts on its nullifier and its output. -/
def pqKeys (input : PQInput) : List Bytes :=
  [ascii "pqnull:" ++ input.nullifier, ascii "pqref:" ++ input.outputRef]

/-- The conflict keys a transaction reserves. -/
def spendKeys (t : Transaction) : List Bytes :=
  t.inputs.flatMap (inputKeys V) ++ t.anonInputs.map (anonKey V) ++ t.swapInputs.map swapKey ++
    t.vaultInputs.map vaultKey ++ t.zkInputs.map zkKey ++ t.czkSpends.map czkKey ++
    t.pqInputs.flatMap pqKeys

section Keys

variable {V} {t : Transaction}

theorem ref_mem_spendKeys {input : Input} (listed : input ∈ t.inputs) :
    input.outputRef ∈ spendKeys V t := by
  simp only [spendKeys, List.mem_append, List.mem_flatMap]
  exact Or.inl (Or.inl (Or.inl (Or.inl (Or.inl (Or.inl ⟨input, listed, List.mem_cons_self⟩)))))

theorem image_mem_spendKeys {input : Input} (listed : input ∈ t.inputs)
    (width : input.keyImage.length = 32) :
    ascii "tag:" ++ recordedTag V input.keyImage ∈ spendKeys V t := by
  simp only [spendKeys, List.mem_append, List.mem_flatMap]
  refine Or.inl (Or.inl (Or.inl (Or.inl (Or.inl (Or.inl ⟨input, listed, ?_⟩)))))
  rw [inputKeys, if_pos width]
  exact List.mem_cons_of_mem _ (List.mem_singleton_self _)

theorem anonKey_mem_spendKeys {input : AnonInput} (listed : input ∈ t.anonInputs) :
    ascii "tag:" ++ recordedTag V input.tag ∈ spendKeys V t := by
  simp only [spendKeys, List.mem_append, List.mem_map]
  exact Or.inl (Or.inl (Or.inl (Or.inl (Or.inl (Or.inr ⟨input, listed, rfl⟩)))))

theorem swapKey_mem_spendKeys {input : SwapIn} (listed : input ∈ t.swapInputs) :
    ascii "swap:" ++ input.swapKey ∈ spendKeys V t := by
  simp only [spendKeys, List.mem_append, List.mem_map]
  exact Or.inl (Or.inl (Or.inl (Or.inl (Or.inr ⟨input, listed, rfl⟩))))

theorem vaultKey_mem_spendKeys {input : VaultIn} (listed : input ∈ t.vaultInputs) :
    ascii "vaultin:" ++ input.vaultKey ∈ spendKeys V t := by
  simp only [spendKeys, List.mem_append, List.mem_map]
  exact Or.inl (Or.inl (Or.inl (Or.inr ⟨input, listed, rfl⟩)))

theorem zkKey_mem_spendKeys {input : ZKInput} (listed : input ∈ t.zkInputs) :
    ascii "zknull:" ++ input.nullifier ∈ spendKeys V t := by
  simp only [spendKeys, List.mem_append, List.mem_map]
  exact Or.inl (Or.inl (Or.inr ⟨input, listed, rfl⟩))

theorem czkKey_mem_spendKeys {s : CZKSpend} (listed : s ∈ t.czkSpends) :
    ascii "zknull:" ++ s.nullifier ∈ spendKeys V t := by
  simp only [spendKeys, List.mem_append, List.mem_map]
  exact Or.inl (Or.inr ⟨s, listed, rfl⟩)

end Keys

/-- The fee per byte, rounded down. -/
def rateOf (t : Transaction) (size : Nat) : UInt64 := t.fee / UInt64.ofNat (max 1 size)

/-! ## Removal -/

/-- Drop a transaction and the keys it still owns. -/
def deleteLocked (m : Mempool) (id : Bytes) : Mempool :=
  match m.txs[id]? with
  | none => m
  | some e =>
    { txs := m.txs.erase id
      spentBy := Reservation.release m.spentBy id (spendKeys V e.tx)
      curBytes := m.curBytes - e.size }

/-- Remove transactions and what they are indexed under. -/
def deleteAll (m : Mempool) (ids : List Bytes) : Mempool := ids.foldl (deleteLocked V) m

/-- Remove what has waited too long. -/
def expireLocked (now : Int) (m : Mempool) : Mempool :=
  deleteAll V m ((m.txs.toList.filter fun (_, e) => txTTL < now - e.added).map Prod.fst)

/-- Drop the transactions of a block, then those that conflict with it. -/
def remove (m : Mempool) (txs : List Transaction) : Mempool :=
  let normal := txs.filter fun t => !t.isCoinbase
  let blockSpent := normal.flatMap (spendKeys V)
  let m := deleteAll V m (normal.map (hashHex V))
  deleteAll V m ((m.txs.toList.filter fun (_, e) =>
    (spendKeys V e.tx).any fun k => blockSpent.contains k).map Prod.fst)

/-! ## Admission -/

/-- What `Add` checks before it takes the lock: whether the id is pooled was read under
an earlier lock, and `valid` is what the chain said. -/
def precheck (present : Bool) (valid : Check Unit) (t : Transaction) : Check Unit := do
  reject t.isCoinbase "mempool: coinbase not allowed"
  let size := t.serialize.length
  reject (maxTxBytes < size) "mempool: transaction too large"
  reject (t.fee < UInt64.ofNat size * Config.minFeePerByte) "mempool: fee below minimum"
  reject present "mempool: already present"
  valid

/-- The set of pending transactions that own a key of this one. -/
def conflictsOf (m : Mempool) (t : Transaction) : List Bytes :=
  ((spendKeys V t).filterMap fun k => m.spentBy[k]?).dedup

/-- The replace-by-fee policy. -/
def checkReplacementLocked (m : Mempool) (t : Transaction) (newSize : Nat)
    (conflicts : List Bytes) : Check Unit := do
  reject (maxReplacementConflicts < conflicts.length)
    "mempool: replacement conflicts with too many transactions"
  let (oldFeeTotal, maxOldRate) ← conflicts.foldlM (fun (old : UInt64 × UInt64) cid => do
    let e ← orReject m.txs[cid]?
      "runtime error: invalid memory address or nil pointer dereference"
    pure (old.1 + e.tx.fee, if old.2 < e.feeRate then e.feeRate else old.2)) (0, 0)
  reject (rateOf t newSize ≤ maxOldRate)
    "mempool: replacement fee-rate must exceed the replaced transaction"
  let required := oldFeeTotal + UInt64.ofNat newSize * Config.minFeePerByte
  reject (required < oldFeeTotal) "mempool: replacement fee overflow"
  reject (t.fee < required)
    "mempool: replacement fee must cover replaced fees plus relay bandwidth"

/-- An order in which the entries of a map are listed. -/
structure Listing where
  order : List (Bytes × Entry) → List (Bytes × Entry)
  perm : ∀ entries, (order entries).Perm entries

/-- The first entry with the lowest fee rate. -/
def lowest (entries : List (Bytes × Entry)) : Bytes × UInt64 :=
  entries.foldl (fun low (id, e) => if e.feeRate < low.2 then (id, e.feeRate) else low)
    ([], 2 ^ 64 - 1)

/-- Drop the entry with the lowest fee rate if it pays less than the incoming one. -/
def evictLowestLocked (listing : Listing) (incomingRate : UInt64) (m : Mempool) :
    Option Mempool :=
  let (lowID, lowRate) := lowest (listing.order m.txs.toList)
  if lowID = [] ∨ incomingRate ≤ lowRate then none else some (deleteLocked V m lowID)

/-- The lowest entry is one of the entries, or nothing was below the start. -/
theorem lowest_spec (entries : List (Bytes × Entry)) :
    (lowest entries = ([], 2 ^ 64 - 1) ∨
      ∃ e, ((lowest entries).1, e) ∈ entries ∧ e.feeRate = (lowest entries).2) ∧
    ∀ entry ∈ entries, (lowest entries).2 ≤ entry.2.feeRate := by
  have from_ (low : Bytes × UInt64) :
      let least := entries.foldl (fun low (entry : Bytes × Entry) =>
        if entry.2.feeRate < low.2 then (entry.1, entry.2.feeRate) else low) low
      (least = low ∨ ∃ e, (least.1, e) ∈ entries ∧ e.feeRate = least.2) ∧
        least.2 ≤ low.2 ∧ ∀ entry ∈ entries, least.2 ≤ entry.2.feeRate := by
    induction entries generalizing low with
    | nil => exact ⟨Or.inl rfl, UInt64.le_refl _, fun _ member => absurd member List.not_mem_nil⟩
    | cons entry entries ih =>
      dsimp only
      rw [List.foldl_cons]
      obtain ⟨place, start, below⟩ :=
        ih (if entry.2.feeRate < low.2 then (entry.1, entry.2.feeRate) else low)
      generalize entries.foldl (fun low (entry : Bytes × Entry) =>
        if entry.2.feeRate < low.2 then (entry.1, entry.2.feeRate) else low) _ = least
        at place start below ⊢
      split_ifs at place start with lower
      · have first : least.2 ≤ entry.2.feeRate := start
        refine ⟨Or.inr ?_, UInt64.le_trans first (UInt64.le_of_lt lower), ?_⟩
        · rcases place with rfl | ⟨e, member, same⟩
          · exact ⟨entry.2, List.mem_cons_self, rfl⟩
          · exact ⟨e, List.mem_cons_of_mem _ member, same⟩
        · intro other member
          rcases List.mem_cons.mp member with rfl | later
          · exact first
          · exact below other later
      · refine ⟨?_, start, ?_⟩
        · rcases place with same | ⟨e, member, same⟩
          · exact Or.inl same
          · exact Or.inr ⟨e, List.mem_cons_of_mem _ member, same⟩
        · intro other member
          rcases List.mem_cons.mp member with rfl | later
          · exact UInt64.le_trans start (UInt64.not_lt.mp lower)
          · exact below other later
  obtain ⟨place, -, below⟩ := from_ ([], 2 ^ 64 - 1)
  exact ⟨place, below⟩

/-- What an eviction drops. -/
theorem evictLowestLocked_some {listing : Listing} {incomingRate : UInt64} {m m' : Mempool}
    (evicted : evictLowestLocked V listing incomingRate m = some m') :
    ∃ id e, m.txs[id]? = some e ∧ e.feeRate < incomingRate ∧ m' = deleteLocked V m id := by
  unfold evictLowestLocked at evicted
  dsimp only at evicted
  split_ifs at evicted with refused
  obtain rfl := Option.some.inj evicted
  obtain ⟨present, higher⟩ := not_or.mp refused
  obtain ⟨e, member, same⟩ := (lowest_spec (listing.order m.txs.toList)).1.resolve_left
    fun start => present (congrArg Prod.fst start)
  have listed := (listing.perm m.txs.toList).mem_iff.mp member
  refine ⟨_, e, Std.ExtTreeMap.mem_toList_iff_getElem?_eq_some.mp listed, ?_, rfl⟩
  rw [same]
  exact UInt64.not_le.mp higher

set_option maxRecDepth 30000 in
theorem toNat_top : (2 ^ 64 - 1 : UInt64).toNat = 18_446_744_073_709_551_615 := by decide

theorem evictLowestLocked_none {listing : Listing} {incomingRate : UInt64} {m : Mempool}
    (named : ∀ (id : Bytes) (e : Entry), m.txs[id]? = some e → id ≠ [])
    (refused : evictLowestLocked V listing incomingRate m = none) {id : Bytes} {e : Entry}
    (found : m.txs[id]? = some e) : incomingRate ≤ e.feeRate := by
  obtain ⟨place, below⟩ := lowest_spec (listing.order m.txs.toList)
  have least := below (id, e) ((listing.perm m.txs.toList).mem_iff.mpr
    (Std.ExtTreeMap.mem_toList_iff_getElem?_eq_some.mpr found))
  unfold evictLowestLocked at refused
  dsimp only at refused
  split_ifs at refused with kept
  rcases kept with unnamed | higher
  · rcases place with start | ⟨e', member, same⟩
    · have top : incomingRate ≤ 2 ^ 64 - 1 := by
        have bound := incomingRate.toNat_lt
        rw [UInt64.le_iff_toNat_le, toNat_top]
        omega
      rw [start] at least
      exact UInt64.le_trans top least
    · have listed := (listing.perm m.txs.toList).mem_iff.mp member
      exact absurd unnamed
        (named _ _ (Std.ExtTreeMap.mem_toList_iff_getElem?_eq_some.mp listed))
  · exact UInt64.le_trans higher least

/-- A deletion leaves fewer entries. -/
theorem deleteLocked_size {m : Mempool} {id : Bytes} {e : Entry} (found : m.txs[id]? = some e) :
    (deleteLocked V m id).txs.size < m.txs.size := by
  have member : id ∈ m.txs := by
    rw [Std.ExtTreeMap.mem_iff_isSome_getElem?, found]
    rfl
  have positive : m.txs.size ≠ 0 := by
    intro zero
    rw [← Std.ExtTreeMap.eq_empty_iff_size_eq_zero] at zero
    rw [zero] at member
    exact Std.ExtTreeMap.not_mem_empty member
  rw [deleteLocked, found]
  change (m.txs.erase id).size < m.txs.size
  rw [Std.ExtTreeMap.size_erase, if_pos (Std.ExtTreeMap.mem_iff_contains.mp member)]
  omega

/-- No room for another transaction of a size. -/
def full (m : Mempool) (size : Nat) : Bool :=
  maxMempoolTxs ≤ m.txs.size || (maxMempoolBytes : Int) < m.curBytes + size

/-- Evict until the incoming transaction fits; each round lists the map anew. -/
def makeRoom (listings : Nat → Listing) (incomingRate : UInt64) (size : Nat) (m : Mempool) :
    Bool × Mempool :=
  if full m size then
    match _ : evictLowestLocked V (listings m.txs.size) incomingRate m with
    | none => (false, m)
    | some m' => makeRoom listings incomingRate size m'
  else
    (true, m)
termination_by m.txs.size
decreasing_by
  rename_i evicted
  obtain ⟨id, e, found, -, rfl⟩ := evictLowestLocked_some V evicted
  exact deleteLocked_size V found

/-- What `Add` does under the lock. -/
def addLocked (L : Ledger) (now added : Int) (listings : Nat → Listing) (m : Mempool)
    (t : Transaction) : Check Unit × Mempool :=
  let size := t.serialize.length
  let m := expireLocked V now m
  let id := hashHex V t
  if m.txs[id]?.isSome then
    (.error "mempool: already present", m)
  else if t.inputs.any fun input => (L.utxoEntry input.outputRef).isNone then
    (.error "mempool: output already spent", m)
  else if t.anonInputs.any fun input => L.tags.has (hexstr (recordedTag V input.tag)) then
    (.error "mempool: key-image already spent", m)
  else
    let conflicts := conflictsOf V m t
    let replaced := if conflicts = [] then .ok () else checkReplacementLocked m t size conflicts
    match replaced with
    | .error err => (.error err, m)
    | .ok _ =>
      match makeRoom V listings (rateOf t size) size (deleteAll V m conflicts) with
      | (false, m) => (.error "mempool: full", m)
      | (true, m) =>
        (.ok (), {
          txs := m.txs.insert id ⟨id, t, size, added, rateOf t size⟩
          spentBy := Reservation.reserve m.spentBy id (spendKeys V t)
          curBytes := m.curBytes + size })

/-! ## Selection -/

/-- Higher rate first, then higher fee, then the smaller id. -/
def sortsBefore (a b : Entry) : Bool :=
  if a.feeRate ≠ b.feeRate then b.feeRate < a.feeRate
  else if a.tx.fee ≠ b.tx.fee then b.tx.fee < a.tx.fee
  else compare a.id b.id = .lt

/-- Take what fits, up to `n` transactions. -/
def fill (n budget : Nat) (entries : List Entry) : List Transaction :=
  (entries.foldl (fun (out, used) (e : Entry) =>
    if n ≤ out.length ∨ budget < used + e.size then (out, used)
    else (out ++ [e.tx], used + e.size)) (([] : List Transaction), 0)).1

/-- The transactions for a block of at most `n`, and the mempool without those that
expired. -/
def select (now : Int) (m : Mempool) (n : Nat) : List Transaction × Mempool :=
  let m := expireLocked V now m
  let ents := (m.txs.toList.map Prod.snd).insertionSort fun a b => !sortsBefore b a
  (fill n (Config.maxBlockBytes - coinbaseReserveBytes) ents, m)

end Operations

end Mempool

end Obscura
