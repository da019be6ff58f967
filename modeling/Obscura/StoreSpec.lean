import Obscura.Store

/-! # What a disk store lists

The buckets of a store that was only ever fed new entries are determined by the
list of these entries (`SetBuckets.Lists`, `CoinStore.Lists`). Adding a new entry
appends to the list and truncating cuts it, so a store is restored to an earlier
state by its count alone.
-/

namespace Obscura

open Wire

/-! ## Truncating buckets -/

section Buckets

variable {β : Type}

theorem lookup_below (map : IndexMap β) (bound index : Nat) :
    (map.filter fun index _ => index < bound)[index]? =
      if index < bound then map[index]? else none := by
  rw [Std.ExtTreeMap.getElem?_filter']
  cases map[index]? <;> by_cases below : index < bound <;> simp [below, Option.filter]

/-- The entries at `bound` and later. -/
def entriesFrom (map : IndexMap β) (bound : Nat) : List (Nat × β) :=
  map.toList.filter fun entry => bound ≤ entry.1

theorem mem_entriesFrom {map : IndexMap β} {bound : Nat} {entry : Nat × β} :
    entry ∈ entriesFrom map bound ↔ bound ≤ entry.1 ∧ map[entry.1]? = some entry.2 := by
  unfold entriesFrom
  rw [List.mem_filter, Std.ExtTreeMap.mem_toList_iff_getElem?_eq_some, decide_eq_true_eq, and_comm]

/-- An index bucket that holds a list. -/
def Indexes (map : IndexMap β) (entries : List β) : Prop :=
  ∀ index : Nat, map[index]? = entries[index]?

/-- One entry more. -/
theorem Indexes.append {map : IndexMap β} {entries : List β} (holds : Indexes map entries)
    (entry : β) : Indexes (map.insert entries.length entry) (entries ++ [entry]) := by
  intro index
  rw [OrdMap.lookup_insert, holds index]
  by_cases last : entries.length = index
  · subst last
    simp
  · rw [if_neg last]
    by_cases before : index < entries.length
    · rw [List.getElem?_append_left before]
    · rw [List.getElem?_eq_none (by omega), List.getElem?_eq_none]
      rw [List.length_append, List.length_singleton]
      omega

/-- A prefix of the entries. -/
theorem Indexes.of_prefix {map : IndexMap β} {entries : List β}
    (first : ∀ index < entries.length, map[index]? = entries[index]?) :
    Indexes (map.filter fun index _ => index < entries.length) entries := by
  intro index
  rw [lookup_below]
  by_cases below : index < entries.length
  · rw [if_pos below, first index below]
  · rw [if_neg below, List.getElem?_eq_none (by omega)]

end Buckets

/-! ## The disk set -/

section Sets

variable (V : Primitives)

/-- The running commitment after a list of keys. -/
def keysCommit (keys : List Bytes) : SetCommit :=
  keys.foldl (fun commit key => commit + memberHash V key) 0

/-- The buckets of a set that was fed `keys`, all different. -/
structure SetBuckets.Lists (db : SetBuckets) (keys : List Bytes) : Prop where
  idx : Indexes db.idx keys
  set : ∀ key : Bytes, db.set[key]? = if key ∈ keys then some () else none
  commits : ∀ n : Nat, db.commits[n]? =
    if 0 < n ∧ n ≤ keys.length then some (keysCommit V (keys.take n)) else none
  distinct : keys.Nodup

/-- A set at the end of its list. -/
structure DiskSet.Lists (s : DiskSet) (keys : List Bytes) : Prop where
  db : s.db.Lists V keys
  count : s.count = keys.length
  commit : s.commit = keysCommit V keys

variable {V}

theorem DiskSet.Lists.empty : ({} : DiskSet).Lists V [] where
  db := ⟨by intro index; simp, by simp, by intro n; simp; omega, List.nodup_nil⟩
  count := rfl
  commit := rfl

theorem SetBuckets.Lists.unique {first second : SetBuckets} {keys : List Bytes}
    (one : first.Lists V keys) (two : second.Lists V keys) : first = second := by
  obtain ⟨idx, set, commits⟩ := first
  obtain ⟨idx', set', commits'⟩ := second
  have sameIdx : idx = idx' :=
    Std.ExtTreeMap.ext_getElem? fun {index} => (one.idx index).trans (two.idx index).symm
  have sameSet : set = set' :=
    Std.ExtTreeMap.ext_getElem? fun {key} => (one.set key).trans (two.set key).symm
  have sameCommits : commits = commits' :=
    Std.ExtTreeMap.ext_getElem? fun {n} => (one.commits n).trans (two.commits n).symm
  rw [sameIdx, sameSet, sameCommits]

theorem DiskSet.Lists.unique {first second : DiskSet} {keys : List Bytes}
    (one : first.Lists V keys) (two : second.Lists V keys) : first = second := by
  have db := one.db.unique two.db
  have count := one.count.trans two.count.symm
  have commit := one.commit.trans two.commit.symm
  cases first
  cases second
  simp_all

theorem SetBuckets.Lists.contains {db : SetBuckets} {keys : List Bytes} (lists : db.Lists V keys)
    (key : Bytes) : db.set.contains key = decide (key ∈ keys) := by
  rw [← Std.ExtTreeMap.isSome_getElem?_eq_contains, lists.set key]
  by_cases member : key ∈ keys <;> simp [member]

theorem DiskSet.Lists.has {s : DiskSet} {keys : List Bytes} (lists : s.Lists V keys)
    {key : Bytes} : s.has key = true ↔ key ∈ keys := by
  rw [DiskSet.has, lists.db.contains, decide_eq_true_eq]

/-- A new key is listed last. -/
theorem DiskSet.Lists.add {s : DiskSet} {keys : List Bytes} (lists : s.Lists V keys)
    {key : Bytes} (new : key ∉ keys) : (s.add V key).Lists V (keys ++ [key]) := by
  have absent : s.has key = false := by
    rw [DiskSet.has, lists.db.contains, decide_eq_false new]
  have commit : s.commit + memberHash V key = keysCommit V (keys ++ [key]) := by
    rw [lists.commit, keysCommit, keysCommit, List.foldl_append]
    rfl
  have shape : s.add V key =
      { db :=
          { idx := s.db.idx.insert keys.length key
            set := s.db.set.insert key ()
            commits := s.db.commits.insert (keys.length + 1) (keysCommit V (keys ++ [key])) }
        count := keys.length + 1
        commit := keysCommit V (keys ++ [key]) } := by
    simp [DiskSet.add, DiskSet.putKey, DiskSet.putCommit, absent, lists.count, commit]
  rw [shape]
  refine ⟨⟨lists.db.idx.append key, ?_, ?_, ?_⟩, by simp, rfl⟩
  · intro other
    rw [OrdMap.lookup_insert, lists.db.set other]
    by_cases same : key = other
    · simp [same]
    · simp [same, Ne.symm same]
  · intro n
    rw [OrdMap.lookup_insert, lists.db.commits n, List.length_append, List.length_singleton]
    by_cases last : keys.length + 1 = n
    · subst last
      have whole : (keys ++ [key]).take (keys.length + 1) = keys ++ [key] :=
        List.take_of_length_le (by simp)
      simp [whole]
    · rw [if_neg last]
      by_cases within : 0 < n ∧ n ≤ keys.length
      · rw [if_pos within, if_pos ⟨within.1, by omega⟩, List.take_append_of_le_length within.2]
      · rw [if_neg within, if_neg (by omega)]
  · exact List.nodup_append.mpr ⟨lists.db.distinct, List.nodup_singleton key, by
      rintro other member _ single rfl
      exact new (List.mem_singleton.mp single ▸ member)⟩

/-- New keys are listed in order. -/
theorem DiskSet.Lists.addAll {s : DiskSet} {keys more : List Bytes} (lists : s.Lists V keys)
    (new : ∀ key ∈ more, key ∉ keys) (distinct : more.Nodup) :
    (more.foldl (DiskSet.add V) s).Lists V (keys ++ more) := by
  induction more generalizing s keys with
  | nil => simpa using lists
  | cons key more ih =>
    rw [List.nodup_cons] at distinct
    have next := ih (lists.add (new key (by simp))) ?_ distinct.2
    · rwa [List.append_assoc] at next
    · intro other member
      rw [List.mem_append, not_or, List.mem_singleton]
      refine ⟨new other (List.mem_cons_of_mem _ member), ?_⟩
      rintro rfl
      exact distinct.1 member

/-- The buckets hold `keys` at the first indices; what else they hold was written
later. -/
structure SetBuckets.Covers (V : Primitives) (db : SetBuckets) (keys : List Bytes) : Prop where
  idx : ∀ index < keys.length, db.idx[index]? = keys[index]?
  set : ∀ key ∈ keys, db.set[key]? = some ()
  later : ∀ key : Bytes, db.set[key]? ≠ none → key ∉ keys →
    ∃ index, keys.length ≤ index ∧ db.idx[index]? = some key
  apart : ∀ (index : Nat) (key : Bytes), keys.length ≤ index → db.idx[index]? = some key →
    key ∉ keys
  commits : ∀ n ≤ keys.length, db.commits[n]? =
    if n = 0 then none else some (keysCommit V (keys.take n))
  distinct : keys.Nodup

/-- What lists the keys covers them. -/
theorem SetBuckets.Lists.covers {db : SetBuckets} {keys : List Bytes} (lists : db.Lists V keys) :
    db.Covers V keys where
  idx := fun index _ => lists.idx index
  set := fun key member => by rw [lists.set key, if_pos member]
  later := fun key found unlisted => absurd (by rw [lists.set key, if_neg unlisted]) found
  apart := fun index key later found => by
    rw [lists.idx index, List.getElem?_eq_none later] at found
    exact absurd found (by simp)
  commits := fun n within => by
    rw [lists.commits n]
    by_cases none : n = 0
    · rw [if_neg (by omega), if_pos none]
    · rw [if_pos ⟨by omega, within⟩, if_neg none]
  distinct := lists.distinct

/-- What covers keys covers the first of them. -/
theorem SetBuckets.Covers.append_left {db : SetBuckets} {first second : List Bytes}
    (covers : db.Covers V (first ++ second)) : db.Covers V first := by
  obtain ⟨distinct, _, disjoint⟩ := List.nodup_append.mp covers.distinct
  constructor
  case idx =>
    intro index below
    rw [covers.idx index (by rw [List.length_append]; omega), List.getElem?_append_left below]
  case set => exact fun key member => covers.set key (List.mem_append_left _ member)
  case later =>
    intro key found unlisted
    by_cases listed : key ∈ second
    · obtain ⟨offset, atOffset⟩ := List.mem_iff_getElem?.mp listed
      have bound := (List.getElem?_eq_some_iff.mp atOffset).1
      refine ⟨first.length + offset, Nat.le_add_right _ _, ?_⟩
      rw [covers.idx _ (by rw [List.length_append]; omega),
        List.getElem?_append_right (Nat.le_add_right _ _), Nat.add_sub_cancel_left, atOffset]
    · obtain ⟨index, later, atIndex⟩ := covers.later key found (by simp [unlisted, listed])
      rw [List.length_append] at later
      exact ⟨index, by omega, atIndex⟩
  case apart =>
    intro index key later found member
    by_cases within : index < (first ++ second).length
    · rw [covers.idx index within, List.getElem?_append_right later] at found
      exact disjoint key member key (List.mem_of_getElem? found) rfl
    · exact covers.apart index key (by omega) found (List.mem_append_left _ member)
  case commits =>
    intro n within
    rw [covers.commits n (by rw [List.length_append]; omega), List.take_append_of_le_length within]
  case distinct => exact distinct

/-- Truncating drops what was written later. -/
theorem SetBuckets.Covers.truncate {db : SetBuckets} {keys : List Bytes}
    (covers : db.Covers V keys) : (DiskSet.truncateBuckets db keys.length).Lists V keys where
  idx := Indexes.of_prefix covers.idx
  set := by
    intro key
    have erased : (DiskSet.truncateBuckets db keys.length).set =
        OrdMap.eraseAll db.set ((entriesFrom db.idx keys.length).map Prod.snd) := by
      rw [OrdMap.eraseAll, List.foldl_map]
      rfl
    rw [erased, OrdMap.lookup_eraseAll]
    by_cases member : key ∈ keys
    · rw [if_pos member, if_neg, covers.set key member]
      intro listed
      obtain ⟨⟨index, _⟩, entry, rfl⟩ := List.mem_map.mp listed
      obtain ⟨later, found⟩ := mem_entriesFrom.mp entry
      exact covers.apart index _ later found member
    · rw [if_neg member]
      split
      · rfl
      · rename_i kept
        by_contra found
        obtain ⟨index, later, atIndex⟩ := covers.later key found member
        exact kept (List.mem_map.mpr ⟨(index, key), mem_entriesFrom.mpr ⟨later, atIndex⟩, rfl⟩)
  commits := by
    intro n
    change (db.commits.filter fun index _ => index ≤ keys.length)[n]? = _
    rw [Std.ExtTreeMap.getElem?_filter']
    by_cases within : n ≤ keys.length
    · rw [covers.commits n within]
      by_cases none : n = 0
      · rw [if_pos none, if_neg (by omega)]
        rfl
      · rw [if_neg none, if_pos ⟨by omega, within⟩]
        simp [within]
    · rw [if_neg (by omega)]
      cases db.commits[n]? <;> simp [within]
  distinct := covers.distinct

theorem DiskSet.truncate_lists {s : DiskSet} {keys : List Bytes} (covers : s.db.Covers V keys) :
    (s.truncate keys.length).Lists V keys := by
  have cut := covers.truncate
  refine ⟨cut, rfl, ?_⟩
  change (if keys.length = 0 then 0 else
    (DiskSet.truncateBuckets s.db keys.length).commits[keys.length]?.getD 0) = _
  by_cases none : keys.length = 0
  · rw [if_pos none, List.length_eq_zero_iff.mp none]
    rfl
  · rw [if_neg none, cut.commits, if_pos ⟨by omega, le_rfl⟩, List.take_length]
    rfl

end Sets

/-! ## The coin store -/

/-- The coin buckets after the creation of `coins`, whose keys are all different. -/
structure CoinStore.Lists (s : CoinStore) (coins : List CoinInfo) : Prop where
  byIndex : Indexes s.coinList coins
  byKey : ∀ (key : Bytes) (coin : CoinInfo), s.coins[hexstr key]? = some coin ↔
    coin ∈ coins ∧ coin.key = key
  hexKeys : ∀ key : Bytes, key ∉ coins.map (fun coin => hexstr coin.key) → s.coins[key]? = none
  distinct : (coins.map CoinInfo.key).Nodup

namespace CoinStore.Lists

variable {s : CoinStore} {coins : List CoinInfo}

theorem empty : ({} : CoinStore).Lists [] where
  byIndex := by intro index; simp
  byKey := by simp
  hexKeys := by simp
  distinct := List.nodup_nil

theorem absent (lists : s.Lists coins) {key : Bytes} (unknown : s.coinByKey key = none) :
    key ∉ coins.map CoinInfo.key := by
  intro member
  obtain ⟨coin, coinMember, rfl⟩ := List.mem_map.mp member
  have found := (lists.byKey coin.key coin).mpr ⟨coinMember, rfl⟩
  rw [CoinStore.coinByKey, found] at unknown
  exact Option.some_ne_none coin unknown

theorem unknown (lists : s.Lists coins) {key : Bytes} (new : key ∉ coins.map CoinInfo.key) :
    s.coinByKey key = none := by
  cases found : s.coinByKey key with
  | none => rfl
  | some coin =>
    obtain ⟨member, rfl⟩ := (lists.byKey key coin).mp found
    exact absurd (List.mem_map_of_mem member) new

theorem lookup (lists : s.Lists coins) (key : Bytes) (coin : CoinInfo) :
    s.coins[key]? = some coin ↔ coin ∈ coins ∧ hexstr coin.key = key := by
  constructor
  · intro found
    by_cases listed : key ∈ coins.map fun coin => hexstr coin.key
    · obtain ⟨other, _, rfl⟩ := List.mem_map.mp listed
      obtain ⟨member, same⟩ := (lists.byKey other.key coin).mp found
      exact ⟨member, by rw [same]⟩
    · rw [lists.hexKeys key listed] at found
      exact absurd found (by simp)
  · rintro ⟨member, rfl⟩
    exact (lists.byKey coin.key coin).mpr ⟨member, rfl⟩

theorem unique {s' : CoinStore} (one : s.Lists coins) (two : s'.Lists coins)
    (count : s.coinCount = s'.coinCount) : s = s' := by
  obtain ⟨coinList, byKey, n⟩ := s
  obtain ⟨coinList', byKey', n'⟩ := s'
  have sameList : coinList = coinList' :=
    Std.ExtTreeMap.ext_getElem? fun {index} => (one.byIndex index).trans (two.byIndex index).symm
  have sameKeys : byKey = byKey' := by
    refine Std.ExtTreeMap.ext_getElem? fun {key} => Option.ext fun coin => ?_
    exact (one.lookup key coin).trans (two.lookup key coin).symm
  obtain rfl : n = n' := count
  rw [sameList, sameKeys]

/-- A new coin is listed last. -/
theorem addCoin (lists : s.Lists coins) (count : s.coinCount = coins.length) {key : Bytes}
    (new : s.coinByKey key = none) (commitment : Bytes) (height : Nat) (isCoinbase : Bool)
    (lockUntil : UInt64) :
    (s.addCoin key commitment height isCoinbase lockUntil).Lists
      (coins ++ [⟨key, commitment, height, isCoinbase, lockUntil, coins.length⟩]) := by
  have unknown := lists.absent new
  constructor
  case byIndex =>
    have appended := lists.byIndex.append ⟨key, commitment, height, isCoinbase, lockUntil,
      coins.length⟩
    rw [← count] at appended
    rw [← count]
    exact appended
  case byKey =>
    intro other coin
    change (s.coins.insert (hexstr key) _)[hexstr other]? = some coin ↔ _
    rw [OrdMap.lookup_insert, List.mem_append, List.mem_singleton, count]
    by_cases same : key = other
    · subst same
      rw [if_pos rfl, Option.some_inj]
      constructor
      · rintro rfl
        exact ⟨Or.inr rfl, rfl⟩
      · rintro ⟨old | rfl, keyEq⟩
        · exact absurd (keyEq ▸ List.mem_map_of_mem old) unknown
        · rfl
    · rw [if_neg (by simpa using same), lists.byKey other coin]
      constructor
      · rintro ⟨member, keyEq⟩
        exact ⟨Or.inl member, keyEq⟩
      · rintro ⟨old | rfl, keyEq⟩
        · exact ⟨old, keyEq⟩
        · exact absurd keyEq same
  case hexKeys =>
    intro other unlisted
    rw [List.map_append, List.mem_append, not_or] at unlisted
    change (s.coins.insert (hexstr key) _)[other]? = none
    rw [OrdMap.lookup_insert, if_neg fun same => unlisted.2 (by simp [same]),
      lists.hexKeys other unlisted.1]
  case distinct =>
    rw [List.map_append, List.nodup_append]
    refine ⟨lists.distinct, List.nodup_singleton _, ?_⟩
    rintro other member _ single rfl
    obtain rfl : other = key := List.mem_singleton.mp single
    exact unknown member

end CoinStore.Lists

/-- The coin buckets hold `coins` at the first indices; what else they hold was
written later. -/
structure CoinStore.Covers (s : CoinStore) (coins : List CoinInfo) : Prop where
  byIndex : ∀ index < coins.length, s.coinList[index]? = coins[index]?
  byKey : ∀ coin ∈ coins, s.coins[hexstr coin.key]? = some coin
  later : ∀ (key : Bytes) (coin : CoinInfo), s.coins[key]? = some coin →
    key ∉ coins.map (fun coin => hexstr coin.key) →
      ∃ index other, coins.length ≤ index ∧ s.coinList[index]? = some other ∧
        hexstr other.key = key
  apart : ∀ (index : Nat) (coin : CoinInfo), coins.length ≤ index →
    s.coinList[index]? = some coin → coin.key ∉ coins.map CoinInfo.key
  distinct : (coins.map CoinInfo.key).Nodup

namespace CoinStore

variable {s : CoinStore} {coins : List CoinInfo}

theorem Lists.covers (lists : s.Lists coins) : s.Covers coins where
  byIndex := fun index _ => lists.byIndex index
  byKey := fun coin member => (lists.byKey coin.key coin).mpr ⟨member, rfl⟩
  later := fun key coin found unlisted =>
    absurd found (by rw [lists.hexKeys key unlisted]; simp)
  apart := fun index coin later found => by
    rw [lists.byIndex index, List.getElem?_eq_none later] at found
    exact absurd found (by simp)
  distinct := lists.distinct

/-- What covers coins covers the first of them. -/
theorem Covers.append_left {first second : List CoinInfo} (covers : s.Covers (first ++ second)) :
    s.Covers first := by
  have distinct := covers.distinct
  rw [List.map_append, List.nodup_append] at distinct
  obtain ⟨distinct, _, disjoint⟩ := distinct
  constructor
  case byIndex =>
    intro index below
    rw [covers.byIndex index (by rw [List.length_append]; omega), List.getElem?_append_left below]
  case byKey => exact fun coin member => covers.byKey coin (List.mem_append_left _ member)
  case later =>
    intro key coin found unlisted
    by_cases listed : key ∈ second.map fun coin => hexstr coin.key
    · obtain ⟨other, member, rfl⟩ := List.mem_map.mp listed
      obtain ⟨offset, atOffset⟩ := List.mem_iff_getElem?.mp member
      have bound := (List.getElem?_eq_some_iff.mp atOffset).1
      refine ⟨first.length + offset, other, Nat.le_add_right _ _, ?_, rfl⟩
      rw [covers.byIndex _ (by rw [List.length_append]; omega),
        List.getElem?_append_right (Nat.le_add_right _ _), Nat.add_sub_cancel_left, atOffset]
    · obtain ⟨index, other, later, atIndex, same⟩ := covers.later key coin found (by
        rw [List.map_append, List.mem_append, not_or]
        exact ⟨unlisted, listed⟩)
      rw [List.length_append] at later
      exact ⟨index, other, by omega, atIndex, same⟩
  case apart =>
    intro index coin later found member
    by_cases within : index < (first ++ second).length
    · rw [covers.byIndex index within, List.getElem?_append_right later] at found
      exact disjoint _ member _ (List.mem_map_of_mem (List.mem_of_getElem? found)) rfl
    · refine covers.apart index coin (by omega) found ?_
      rw [List.map_append]
      exact List.mem_append_left _ member
  case distinct => exact distinct

/-- Truncating drops the coins that were created later. -/
theorem Covers.truncate (covers : s.Covers coins) :
    (s.truncateCoins coins.length).Lists coins := by
  have erased : (s.truncateCoins coins.length).coins = OrdMap.eraseAll s.coins
      (((entriesFrom s.coinList coins.length).map Prod.snd).map fun coin => hexstr coin.key) := by
    rw [OrdMap.eraseAll, List.foldl_map, List.foldl_map]
    rfl
  have kept : ∀ coin ∈ coins, (s.truncateCoins coins.length).coins[hexstr coin.key]? =
      some coin := by
    intro coin member
    rw [erased, OrdMap.lookup_eraseAll, if_neg, covers.byKey coin member]
    intro listed
    simp only [List.map_map, List.mem_map] at listed
    obtain ⟨⟨index, other⟩, entry, same⟩ := listed
    obtain ⟨later, found⟩ := mem_entriesFrom.mp entry
    refine covers.apart index other later found ?_
    rw [hexstr_injective same]
    exact List.mem_map_of_mem member
  have dropped : ∀ key : Bytes, key ∉ coins.map (fun coin => hexstr coin.key) →
      (s.truncateCoins coins.length).coins[key]? = none := by
    intro key unlisted
    rw [erased, OrdMap.lookup_eraseAll]
    split
    · rfl
    · rename_i remains
      cases found : s.coins[key]? with
      | none => rfl
      | some coin =>
        obtain ⟨index, other, later, atIndex, same⟩ := covers.later key coin found unlisted
        refine absurd (List.mem_map.mpr ⟨other, List.mem_map.mpr ⟨(index, other), ?_, rfl⟩, same⟩)
          remains
        exact mem_entriesFrom.mpr ⟨later, atIndex⟩
  constructor
  case byIndex => exact Indexes.of_prefix covers.byIndex
  case byKey =>
    intro key coin
    constructor
    · intro found
      by_cases listed : hexstr key ∈ coins.map fun coin => hexstr coin.key
      · obtain ⟨other, member, same⟩ := List.mem_map.mp listed
        obtain rfl : other.key = key := hexstr_injective same
        rw [kept other member] at found
        obtain rfl := Option.some.inj found
        exact ⟨member, rfl⟩
      · rw [dropped _ listed] at found
        exact absurd found (by simp)
    · rintro ⟨member, rfl⟩
      exact kept coin member
  case hexKeys => exact dropped
  case distinct => exact covers.distinct

end CoinStore

end Obscura
