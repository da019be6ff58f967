import Obscura.MempoolIndex

/-! # Refused admissions

What `Add` deletes before it knows that there is room is gone when there is none: first the
transactions that the incoming one would replace, then one after the other those that pay
less per byte. Room is never found exactly if those that stay under every eviction leave none
(`makeRoom_fails_iff`), so a refusal leaves the pool as it was except where something was
deleted before (`add_unchanged_iff`).
-/

namespace Obscura.Mempool

open Wire Tx Checked

variable (V : Primitives)

/-- `Add` with the checks it makes before it takes the lock: `present` and `valid` are what it
read there. -/
def add (present : Bool) (valid : Check Unit) (L : Ledger) (now added : Int)
    (listings : Nat → Listing) (m : Mempool) (t : Transaction) : Check Unit × Mempool :=
  match precheck present valid t with
  | .error err => (.error err, m)
  | .ok _ => addLocked V L now added listings m t

/-- The checks under the lock that come before the first deletion refuse the transaction. -/
def Refused (L : Ledger) (m : Mempool) (t : Transaction) : Prop :=
  m.txs[hashHex V t]?.isSome = true ∨
    (t.inputs.any fun input => (L.utxoEntry input.outputRef).isNone) = true ∨
    (t.anonInputs.any fun input => L.tags.has (hexstr (recordedTag V input.tag))) = true ∨
    conflictsOf V m t ≠ [] ∧
      checkReplacementLocked m t t.serialize.length (conflictsOf V m t) ≠ .ok ()

/-- A pool of these transactions has no room for another one. -/
def crowded (txs : GoMap Entry) (size : Nat) : Prop :=
  maxMempoolTxs ≤ txs.size ∨ maxMempoolBytes < OrdMap.total Entry.size txs + size

/-- The transactions that pay at least the given rate. -/
def paying (txs : GoMap Entry) (rate : UInt64) : GoMap Entry :=
  txs.filter fun _ e => rate ≤ e.feeRate

/-- The transactions that stay whatever is evicted for the incoming one. -/
def staying (m : Mempool) (t : Transaction) : GoMap Entry :=
  m.txs.filter fun id e => id ∉ conflictsOf V m t ∧ rateOf t t.serialize.length ≤ e.feeRate

variable {V} {m : Mempool}

/-! ## Making room -/

theorem full_iff_crowded (indexed : Indexed V m) (size : Nat) :
    full m size = true ↔ crowded m.txs size := by
  rw [full, crowded, Bool.or_eq_true, decide_eq_true_eq, decide_eq_true_eq, indexed.bytes]
  exact or_congr Iff.rfl (by exact_mod_cast Iff.rfl)

theorem crowded_of_filter {txs : GoMap Entry} {keep : Bytes → Entry → Bool} {size : Nat}
    (tight : crowded (txs.filter keep) size) : crowded txs size := by
  refine tight.imp (le_trans · Std.ExtTreeMap.size_filter_le_size) fun exceeds => exceeds.trans_le ?_
  refine Nat.add_le_add_right ?_ size
  rw [OrdMap.total, OrdMap.total, Std.ExtTreeMap.toList_filter]
  exact (List.filter_sublist.map _).sum_le_sum fun _ _ => Nat.zero_le _

theorem paying_delete {id : Bytes} {e : Entry} {rate : UInt64} (found : m.txs[id]? = some e)
    (lower : e.feeRate < rate) : paying (deleteLocked V m id).txs rate = paying m.txs rate := by
  refine Std.ExtTreeMap.ext_getElem? fun {other} => ?_
  rw [paying, paying, Std.ExtTreeMap.getElem?_filter', Std.ExtTreeMap.getElem?_filter',
    deleteLocked_txs]
  split_ifs with same
  · subst same
    rw [found]
    exact (Option.filter_some_neg (by simpa using lower)).symm
  · rfl

theorem paying_all {rate : UInt64}
    (all : ∀ (id : Bytes) (e : Entry), m.txs[id]? = some e → rate ≤ e.feeRate) :
    paying m.txs rate = m.txs := by
  refine Std.ExtTreeMap.ext_getElem? fun {id} => ?_
  rw [paying, Std.ExtTreeMap.getElem?_filter']
  cases found : m.txs[id]? with
  | none => rfl
  | some e => exact Option.filter_some_pos (by simpa using all id e found)

/-- **Making room.** No room is found exactly if those that pay at least the incoming rate leave
none; then all others are gone. -/
theorem makeRoom_fails_iff (indexed : Indexed V m)
    (named : ∀ (id : Bytes) (e : Entry), m.txs[id]? = some e → id ≠ [])
    (listings : Nat → Listing) (rate : UInt64) (size : Nat) :
    ((makeRoom V listings rate size m).1 = false ↔ crowded (paying m.txs rate) size) ∧
      ((makeRoom V listings rate size m).1 = false →
        (makeRoom V listings rate size m).2.txs = paying m.txs rate) := by
  induction m using makeRoom.induct V listings rate with
  | size => exact size
  | case1 m tight none =>
    have all := paying_all fun id e found => evictLowestLocked_none V named none found
    rw [makeRoom, if_pos tight, all]
    split
    · exact ⟨⟨fun _ => (full_iff_crowded indexed size).mp tight, fun _ => rfl⟩, fun _ => rfl⟩
    · next some => simp [none] at some
  | case2 m tight m' evicted ih =>
    obtain ⟨id, e, found, lower, rfl⟩ := evictLowestLocked_some V evicted
    have next := ih (indexed.delete id) fun other entry kept => by
      rw [deleteLocked_txs] at kept
      split_ifs at kept
      exact named other entry kept
    rw [paying_delete found lower] at next
    rw [makeRoom, if_pos tight]
    split
    · next none => simp [evicted] at none
    · next same =>
      rw [evicted] at same
      obtain rfl := Option.some.inj same
      exact next
  | case3 m fits =>
    rw [makeRoom, if_neg fits]
    refine ⟨⟨by rintro ⟨⟩, fun tight => ?_⟩, by rintro ⟨⟩⟩
    exact absurd ((full_iff_crowded indexed size).mpr (crowded_of_filter tight)) fits

theorem makeRoom_of_paying {listings : Nat → Listing} {rate : UInt64} {size : Nat}
    (all : ∀ (id : Bytes) (e : Entry), m.txs[id]? = some e → rate ≤ e.feeRate) :
    (makeRoom V listings rate size m).2 = m := by
  rw [makeRoom]
  split_ifs
  · split
    · rfl
    · next evicted =>
      obtain ⟨id, e, found, lower, -⟩ := evictLowestLocked_some V evicted
      exact absurd (all id e found) (UInt64.not_le.mpr lower)
  · rfl

/-! ## Admission -/

theorem pooled_of_conflict (indexed : Indexed V m) {t : Transaction} {id : Bytes}
    (conflict : id ∈ conflictsOf V m t) : ∃ e, m.txs[id]? = some e := by
  obtain ⟨key, -, owner⟩ := List.mem_filterMap.mp (List.mem_dedup.mp conflict)
  obtain ⟨e, found, -⟩ := (indexed.owners key id).mp owner
  exact ⟨e, found⟩

theorem paying_deleteAll (t : Transaction) :
    paying (deleteAll V m (conflictsOf V m t)).txs (rateOf t t.serialize.length) =
      staying V m t := by
  refine Std.ExtTreeMap.ext_getElem? fun {id} => ?_
  rw [paying, staying, Std.ExtTreeMap.getElem?_filter', Std.ExtTreeMap.getElem?_filter',
    deleteAll_txs]
  split_ifs with conflict
  · cases m.txs[id]? with
    | none => rfl
    | some e => exact (Option.filter_some_neg (by simp [conflict])).symm
  · cases m.txs[id]? with
    | none => rfl
    | some e =>
      rw [Option.filter, Option.filter]
      simp [conflict]

theorem addLocked_of_refused {L : Ledger} {now added : Int} {listings : Nat → Listing}
    {t : Transaction} (refused : Refused V L (expireLocked V now m) t) :
    (addLocked V L now added listings m t).2 = expireLocked V now m := by
  unfold addLocked
  dsimp only
  split_ifs with present spent tagged none
  · rfl
  · rfl
  · rfl
  · exact absurd none (((refused.resolve_left present).resolve_left spent).resolve_left tagged).1
  · have policy := (((refused.resolve_left present).resolve_left spent).resolve_left tagged).2
    cases check : checkReplacementLocked (expireLocked V now m) t t.serialize.length
        (conflictsOf V (expireLocked V now m) t) with
    | error err => rfl
    | ok _ => exact absurd check policy

/-- What is not refused makes room and enters. -/
theorem addLocked_of_accepted {L : Ledger} {now added : Int} {listings : Nat → Listing}
    {t : Transaction} (accepted : ¬Refused V L (expireLocked V now m) t) :
    addLocked V L now added listings m t =
      match makeRoom V listings (rateOf t t.serialize.length) t.serialize.length
        (deleteAll V (expireLocked V now m) (conflictsOf V (expireLocked V now m) t)) with
      | (false, m) => (.error "mempool: full", m)
      | (true, m) => (.ok (), {
          txs := m.txs.insert (hashHex V t)
            ⟨hashHex V t, t, t.serialize.length, added, rateOf t t.serialize.length⟩
          spentBy := Reservation.reserve m.spentBy (hashHex V t) (spendKeys V t)
          curBytes := m.curBytes + t.serialize.length }) := by
  rw [Refused, not_or, not_or, not_or] at accepted
  obtain ⟨present, spent, tagged, policy⟩ := accepted
  unfold addLocked
  dsimp only
  rw [if_neg present, if_neg spent, if_neg tagged]
  by_cases none : conflictsOf V (expireLocked V now m) t = []
  · rewrite [if_pos none]
    rfl
  · rewrite [if_neg none, not_not.mp fun refused => policy ⟨none, refused⟩]
    rfl

theorem expireLocked_below {now : Int} {id : Bytes} {e : Entry}
    (found : (expireLocked V now m).txs[id]? = some e) : m.txs[id]? = some e := by
  rw [expireLocked, deleteAll_txs] at found
  split_ifs at found
  exact found

/-- **Refused admissions.** A refusal leaves the pool as it was, expired transactions apart,
exactly if it comes before the first deletion, or there is room among those that stay, or all
stay. -/
theorem add_unchanged_iff (hashed : ∀ bytes, (V.blake2b bytes).length = 32)
    (reached : Reachable V m) (present : Bool) (valid : Check Unit) (L : Ledger)
    (now added : Int) (listings : Nat → Listing) (t : Transaction) :
    (∀ err, (add V present valid L now added listings m t).1 = .error err →
      (add V present valid L now added listings m t).2 = m ∨
        (add V present valid L now added listings m t).2 = expireLocked V now m) ↔
    precheck present valid t ≠ .ok () ∨ Refused V L (expireLocked V now m) t ∨
      ¬crowded (staying V (expireLocked V now m) t) t.serialize.length ∨
      ∀ (id : Bytes) (e : Entry), (expireLocked V now m).txs[id]? = some e →
        id ∉ conflictsOf V (expireLocked V now m) t ∧
          rateOf t t.serialize.length ≤ e.feeRate := by
  have fresh := reached.indexed.expire now
  cases passed : precheck present valid t with
  | error err =>
    have unchanged : (add V present valid L now added listings m t).2 = m := by
      rw [add, passed]
    exact ⟨fun _ => Or.inl (by rintro ⟨⟩), fun _ _ _ => Or.inl unchanged⟩
  | ok _ =>
    have locked : add V present valid L now added listings m t =
        addLocked V L now added listings m t := by
      rw [add, passed]
    rw [locked]
    by_cases refused : Refused V L (expireLocked V now m) t
    · exact ⟨fun _ => Or.inr (Or.inl refused),
        fun _ _ _ => Or.inr (addLocked_of_refused refused)⟩
    have named : ∀ (id : Bytes) (e : Entry),
        (deleteAll V (expireLocked V now m) (conflictsOf V (expireLocked V now m) t)).txs[id]? =
          some e → id ≠ [] := by
      rintro id e found rfl
      rw [deleteAll_txs] at found
      split_ifs at found
      have length := congrArg List.length (fresh.entries [] e found).2.1
      rw [hashHex, Forge.length_hexstr, Transaction.hash, hashed] at length
      cases length
    obtain ⟨fails, left⟩ := makeRoom_fails_iff (fresh.deleteAll _) named listings
      (rateOf t t.serialize.length) t.serialize.length
    rw [paying_deleteAll] at fails left
    rw [addLocked_of_accepted refused]
    generalize outcome : makeRoom V listings (rateOf t t.serialize.length) t.serialize.length
      (deleteAll V (expireLocked V now m) (conflictsOf V (expireLocked V now m) t)) = result
      at fails left ⊢
    obtain ⟨granted, rest⟩ := result
    cases granted with
    | true =>
      refine ⟨fun _ => Or.inr (Or.inr (Or.inl fun tight => ?_)), fun _ _ => by rintro ⟨⟩⟩
      cases fails.mpr tight
    | false =>
      have tight := fails.mp rfl
      have rest_txs := left rfl
      change rest.txs = _ at rest_txs
      constructor
      · intro unchanged
        refine Or.inr (Or.inr (Or.inr fun id e found => ?_))
        have kept : rest.txs[id]? = some e := by
          rcases unchanged _ rfl with same | same
          · change rest = m at same
            rw [same]
            exact expireLocked_below found
          · change rest = expireLocked V now m at same
            rw [same]
            exact found
        rw [rest_txs, staying, Std.ExtTreeMap.getElem?_filter', found] at kept
        simpa using kept
      · rintro (early | again | room | all)
        · exact absurd rfl early
        · exact absurd again refused
        · exact absurd tight room
        · intro _ _
          have none : conflictsOf V (expireLocked V now m) t = [] := by
            rw [List.eq_nil_iff_forall_not_mem]
            intro id conflict
            obtain ⟨e, found⟩ := pooled_of_conflict fresh conflict
            exact (all id e found).1 conflict
          rw [none] at outcome
          have same := @makeRoom_of_paying V (expireLocked V now m) listings
            (rateOf t t.serialize.length) t.serialize.length fun id e found => (all id e found).2
          change makeRoom V listings _ _ (expireLocked V now m) = _ at outcome
          rw [outcome] at same
          exact Or.inr same

open Forge in
/-- What is pooled already changes nothing when it comes again. -/
theorem claim_added_again :
    claimPool.txs[hashHex net (settle false)]? = some (pending net 0 (settle false)) ∧
    ∀ err, (add net false (.ok ()) (replay net base) 0 0 (fun _ => sameListing) claimPool
        (settle false)).1 = .error err →
      (add net false (.ok ()) (replay net base) 0 0 (fun _ => sameListing) claimPool
          (settle false)).2 = claimPool ∨
        (add net false (.ok ()) (replay net base) 0 0 (fun _ => sameListing) claimPool
          (settle false)).2 = expireLocked net 0 claimPool := by
  have held : claimPool.txs[hashHex net (settle false)]? =
      some (pending net 0 (settle false)) := Std.ExtTreeMap.getElem?_insert_self
  refine ⟨held, (add_unchanged_iff length_digest claimPool_reachable false (.ok ())
    (replay net base) 0 0 (fun _ => sameListing) (settle false)).mpr
      (Or.inr (Or.inl (Or.inl ?_)))⟩
  rw [expireLocked_fresh, held]
  · rfl
  · intro id e found
    change (({} : GoMap Entry).insert _ _)[id]? = some e at found
    rw [OrdMap.lookup_insert] at found
    split_ifs at found
    · obtain rfl := Option.some.inj found
      decide
    · simp at found

end Obscura.Mempool
