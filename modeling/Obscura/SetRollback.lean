import Obscura.StoreSpec
import Obscura.Testnet
import Mathlib.Algebra.BigOperators.Group.Finset.Basic
import Mathlib.Data.BitVec

/-! # Rolling a disk set back

A key that is added twice moves the count of a set but writes neither an index nor a member,
so the buckets are those of the log of all added keys, duplicates included (`DiskSet.fed`). Of
the calls the chain makes, an addition extends the log and a truncation cuts it; a count that
is taken over or cleared leaves the log alone until the truncation that follows. So truncating
to the count of an earlier state yields that state (`DiskSet.calls_spec`).
-/

namespace Obscura

open Wire

variable (V : Primitives)

namespace DiskSet

/-- The commitment after adding `keys`: those that are present or repeated are skipped. Repeats
are only tracked where there can be any. -/
def commitAfter (s : DiskSet) (keys : List Bytes) : SetCommit :=
  (keys.foldl (fun (state : SetCommit × List Bytes) key =>
    if (1 < keys.length ∧ key ∈ state.2) ∨ s.has key = true then state
    else (state.1 + memberHash V key, if 1 < keys.length then key :: state.2 else state.2))
    (s.commit, [])).1

/-- The set after these additions to an empty one. -/
def fed (log : List Bytes) : DiskSet :=
  log.foldl (add V) {}

end DiskSet

/-- A key at its first place in a log. -/
def firstAt (log : List Bytes) (index : Nat) : Option Bytes :=
  (log[index]?).filter fun key => decide (key ∉ log.take index)

theorem firstAt_eq_some {log : List Bytes} {index : Nat} {key : Bytes} :
    firstAt log index = some key ↔ log[index]? = some key ∧ key ∉ log.take index := by
  rw [firstAt, Option.filter_eq_some_iff, decide_eq_true_eq]

theorem firstAt_take {log : List Bytes} {n index : Nat} (below : index < n) :
    firstAt (log.take n) index = firstAt log index := by
  rw [firstAt, firstAt, List.getElem?_take_of_lt below, List.take_take, Nat.min_eq_left below.le]

theorem firstAt_beyond {log : List Bytes} {index : Nat} (beyond : log.length ≤ index) :
    firstAt log index = none := by
  rw [firstAt, List.getElem?_eq_none beyond]
  rfl

/-- Where a longer log has its first occurrences. -/
theorem firstAt_append (log : List Bytes) (key : Bytes) (index : Nat) :
    firstAt (log ++ [key]) index =
      if log.length = index then if key ∈ log then none else some key else firstAt log index := by
  split_ifs with last old
  · subst last
    rw [firstAt, List.getElem?_append_right (Nat.le_refl _), Nat.sub_self, List.take_left' rfl]
    exact Option.filter_some_neg (by simpa using old)
  · subst last
    rw [firstAt, List.getElem?_append_right (Nat.le_refl _), Nat.sub_self, List.take_left' rfl]
    exact Option.filter_some_pos (by simpa using old)
  · rcases Nat.lt_or_ge index log.length with inside | beyond
    · rw [← @firstAt_take (log ++ [key]) log.length index inside, List.take_left' rfl]
    · rw [firstAt_beyond beyond, firstAt_beyond]
      rw [List.length_append, List.length_singleton]
      omega

/-- Every key of a log has a first place. -/
theorem exists_firstAt {log : List Bytes} {key : Bytes} (member : key ∈ log) :
    ∃ index, firstAt log index = some key := by
  induction log using List.reverseRecOn with
  | nil => exact absurd member List.not_mem_nil
  | append_singleton log last ih =>
    by_cases old : key ∈ log
    · obtain ⟨index, first⟩ := ih old
      refine ⟨index, ?_⟩
      rw [firstAt_append, if_neg, first]
      rintro rfl
      rw [firstAt_beyond (Nat.le_refl _)] at first
      exact nomatch first
    · obtain rfl : key = last :=
        List.mem_singleton.mp ((List.mem_append.mp member).resolve_left old)
      exact ⟨log.length, by rw [firstAt_append, if_pos rfl, if_neg old]⟩

namespace DiskSet

variable {V}

theorem fed_append (log : List Bytes) (key : Bytes) :
    fed V (log ++ [key]) = (fed V log).add V key := by
  rw [fed, List.foldl_append]
  rfl

/-- What the buckets and the memory of a set hold after a log of additions. -/
structure Fed (V : Primitives) (s : DiskSet) (log : List Bytes) : Prop where
  idx : ∀ index : Nat, s.db.idx[index]? = firstAt log index
  set : ∀ key : Bytes, s.db.set[key]? = if key ∈ log then some () else none
  commits : ∀ n : Nat, s.db.commits[n]? =
    if 0 < n ∧ n ≤ log.length then some (fed V (log.take n)).commit else none
  count : s.count = log.length

theorem Fed.has {s : DiskSet} {log : List Bytes} (holds : Fed V s log) {key : Bytes} :
    s.has key = true ↔ key ∈ log := by
  rw [DiskSet.has, ← Std.ExtTreeMap.isSome_getElem?_eq_contains, holds.set key]
  by_cases member : key ∈ log
  · rw [if_pos member]
    exact ⟨fun _ => member, fun _ => rfl⟩
  · rw [if_neg member]
    exact ⟨by rintro ⟨⟩, fun listed => absurd listed member⟩

/-- The writes of one addition. -/
theorem Fed.add {s : DiskSet} {log : List Bytes} (holds : Fed V s log) (same : s = fed V log)
    (key : Bytes) : Fed V (s.add V key) (log ++ [key]) := by
  have commits : ∀ n : Nat, (s.add V key).db.commits[n]? =
      if 0 < n ∧ n ≤ (log ++ [key]).length then
        some (fed V ((log ++ [key]).take n)).commit else none := by
    have recorded : (s.add V key).db.commits =
        s.db.commits.insert (s.count + 1) (s.add V key).commit := by
      rw [DiskSet.add, putKey]
      split <;> rfl
    intro n
    rw [recorded, OrdMap.lookup_insert, holds.commits n, holds.count, List.length_append,
      List.length_singleton]
    by_cases last : log.length + 1 = n
    · have whole : (log ++ [key]).take n = log ++ [key] :=
        List.take_of_length_le (by rw [List.length_append, List.length_singleton]; omega)
      rw [if_pos last, if_pos (by omega), whole, fed_append, ← same]
    · rw [if_neg last]
      by_cases within : 0 < n ∧ n ≤ log.length
      · rw [if_pos within, if_pos (by omega), List.take_append_of_le_length within.2]
      · rw [if_neg within, if_neg (by omega)]
  have count : (s.add V key).count = (log ++ [key]).length := by
    rw [List.length_append, List.length_singleton, ← holds.count, DiskSet.add, putKey]
    split <;> rfl
  by_cases old : s.has key = true
  · have listed := holds.has.mp old
    have buckets : (s.add V key).db.idx = s.db.idx ∧ (s.add V key).db.set = s.db.set := by
      rw [DiskSet.add, putKey, if_pos old]
      exact ⟨rfl, rfl⟩
    refine ⟨?_, ?_, commits, count⟩
    · intro index
      rw [buckets.1, holds.idx index, firstAt_append]
      split_ifs with last
      · rw [firstAt_beyond last.le]
      · rfl
    · intro other
      have grown : other ∈ log ++ [key] ↔ other ∈ log := by
        rw [List.mem_append, List.mem_singleton]
        exact ⟨fun either => either.elim id (fun same => same ▸ listed), Or.inl⟩
      rw [buckets.2, holds.set other, if_congr grown rfl rfl]
  · have fresh : key ∉ log := fun listed => old (holds.has.mpr listed)
    have buckets : (s.add V key).db.idx = s.db.idx.insert s.count key ∧
        (s.add V key).db.set = s.db.set.insert key () := by
      rw [DiskSet.add, putKey, if_neg old]
      exact ⟨rfl, rfl⟩
    refine ⟨?_, ?_, commits, count⟩
    · intro index
      rw [buckets.1, OrdMap.lookup_insert, holds.idx index, holds.count, firstAt_append,
        if_neg fresh]
    · intro other
      rw [buckets.2, OrdMap.lookup_insert, holds.set other]
      by_cases same : key = other
      · rw [if_pos same, if_pos (List.mem_append_right _ (List.mem_singleton.mpr same.symm))]
      · have grown : other ∈ log ++ [key] ↔ other ∈ log := by
          rw [List.mem_append, List.mem_singleton]
          exact or_iff_left fun equal => same equal.symm
        rw [if_neg same, if_congr grown rfl rfl]

theorem fed_holds (V : Primitives) (log : List Bytes) : Fed V (fed V log) log := by
  induction log using List.reverseRecOn with
  | nil => exact ⟨by intro index; simp [fed, firstAt], by simp [fed], by
      intro n
      simp [fed]
      omega, rfl⟩
  | append_singleton log key ih =>
    rw [fed_append]
    exact ih.add rfl key

theorem readCommit_fed (log : List Bytes) {n : Nat} (within : n ≤ log.length) :
    (fed V log).readCommit n = (fed V (log.take n)).commit := by
  rw [readCommit]
  split_ifs with none
  · rw [none, List.take_zero]
    rfl
  · rw [(fed_holds V log).commits n, if_pos ⟨Nat.pos_of_ne_zero none, within⟩]
    rfl

/-- **Truncation.** Truncating to a count yields the set after so many additions. -/
theorem truncate_fed (log : List Bytes) {n : Nat} (within : n ≤ log.length) :
    (fed V log).truncate n = fed V (log.take n) := by
  have whole := fed_holds V log
  have cut := fed_holds V (log.take n)
  have length : (log.take n).length = n := List.length_take_of_le within
  have idx : (truncateBuckets (fed V log).db n).idx = (fed V (log.take n)).db.idx := by
    refine Std.ExtTreeMap.ext_getElem? fun {index} => ?_
    rw [truncateBuckets, lookup_below, whole.idx index, cut.idx index]
    split_ifs with below
    · exact (firstAt_take below).symm
    · rw [firstAt_beyond (by omega)]
  have set : (truncateBuckets (fed V log).db n).set = (fed V (log.take n)).db.set := by
    refine Std.ExtTreeMap.ext_getElem? fun {key} => ?_
    have erased : (truncateBuckets (fed V log).db n).set =
        OrdMap.eraseAll (fed V log).db.set ((entriesFrom (fed V log).db.idx n).map Prod.snd) := by
      rw [OrdMap.eraseAll, List.foldl_map]
      rfl
    have dropped : key ∈ (entriesFrom (fed V log).db.idx n).map Prod.snd ↔
        ∃ index, n ≤ index ∧ firstAt log index = some key := by
      rw [List.mem_map]
      constructor
      · rintro ⟨⟨index, _⟩, entry, rfl⟩
        obtain ⟨later, found⟩ := mem_entriesFrom.mp entry
        exact ⟨index, later, (whole.idx index).symm.trans found⟩
      · rintro ⟨index, later, first⟩
        exact ⟨(index, key), mem_entriesFrom.mpr ⟨later, (whole.idx index).trans first⟩, rfl⟩
    rw [erased, OrdMap.lookup_eraseAll, whole.set key, cut.set key]
    by_cases kept : key ∈ log.take n
    · rw [if_neg, if_pos (List.mem_of_mem_take kept), if_pos kept]
      rw [dropped]
      rintro ⟨index, later, first⟩
      have earlier : log.take n <+: log.take index := List.take_prefix_take_left later
      exact (firstAt_eq_some.mp first).2 (earlier.subset kept)
    · rw [if_neg kept]
      by_cases member : key ∈ log
      · obtain ⟨index, first⟩ := exists_firstAt member
        rw [if_pos]
        refine dropped.mpr ⟨index, ?_, first⟩
        by_contra early
        have place := (firstAt_eq_some.mp first).1
        refine kept (List.mem_of_getElem? (i := index) ?_)
        rw [List.getElem?_take_of_lt (by omega), place]
      · rw [if_neg member, ite_self]
  have commits : (truncateBuckets (fed V log).db n).commits =
      (fed V (log.take n)).db.commits := by
    refine Std.ExtTreeMap.ext_getElem? fun {m} => ?_
    change ((fed V log).db.commits.filter fun index _ => index ≤ n)[m]? = _
    rw [Std.ExtTreeMap.getElem?_filter', whole.commits m, cut.commits m, length]
    by_cases inside : m ≤ n
    · rw [List.take_take, Nat.min_eq_left inside]
      by_cases some : 0 < m
      · rw [if_pos ⟨some, by omega⟩, if_pos ⟨some, inside⟩]
        exact Option.filter_some_pos (by simpa using inside)
      · rw [if_neg (by omega), if_neg (by omega)]
        rfl
    · rw [if_neg (fun both : 0 < m ∧ m ≤ n => inside both.2)]
      split_ifs
      · exact Option.filter_some_neg (by simpa using inside)
      · rfl
  have db : truncateBuckets (fed V log).db n = (fed V (log.take n)).db := by
    rw [SetBuckets.mk.injEq]
    exact ⟨idx, set, commits⟩
  have commit : (if n = 0 then 0 else (truncateBuckets (fed V log).db n).commits[n]?.getD 0) =
      (fed V (log.take n)).commit := by
    have recorded := @readCommit_fed V (log.take n) n length.ge
    rw [List.take_take, Nat.min_self] at recorded
    rw [commits]
    exact recorded
  rw [truncate, mk.injEq]
  exact ⟨db, length.symm.trans cut.count.symm, commit⟩

/-! ## The commitment -/

theorem fed_commit (log : List Bytes) :
    (fed V log).commit = ∑ key ∈ log.toFinset, memberHash V key := by
  induction log using List.reverseRecOn with
  | nil => rfl
  | append_singleton log key ih =>
    have grown : (log ++ [key]).toFinset = insert key log.toFinset := by
      rw [List.toFinset_append, Finset.union_comm]
      rfl
    rw [fed_append, grown]
    by_cases old : (fed V log).has key = true
    · have member := List.mem_toFinset.mpr ((fed_holds V log).has.mp old)
      rw [Finset.insert_eq_of_mem member, ← ih, add, putKey, if_pos old]
      rfl
    · have fresh : key ∉ log.toFinset := fun member =>
        old ((fed_holds V log).has.mpr (List.mem_toFinset.mp member))
      rw [Finset.sum_insert fresh, ← ih, add, putKey, if_neg old, BitVec.add_comm]
      rfl

/-- The members after an insertion. -/
theorem has_add (s : DiskSet) (key other : Bytes) :
    (s.add V key).has other = true ↔ s.has other = true ∨ other = key := by
  rw [add, putKey]
  split_ifs with old
  · exact ⟨Or.inl, fun either => either.elim id fun same => same ▸ old⟩
  · change (s.db.set.insert key ()).contains other = true ↔ s.db.set.contains other = true ∨ _
    rw [← Std.ExtTreeMap.isSome_getElem?_eq_contains, OrdMap.lookup_insert,
      ← Std.ExtTreeMap.isSome_getElem?_eq_contains]
    by_cases same : key = other
    · rw [if_pos same]
      exact ⟨fun _ => Or.inr same.symm, fun _ => rfl⟩
    · rw [if_neg same]
      exact ⟨Or.inl, fun either => either.elim id fun equal => absurd equal.symm same⟩

theorem commit_add (s : DiskSet) (key : Bytes) :
    (s.add V key).commit =
      if s.has key = true then s.commit else s.commit + memberHash V key := by
  rw [add, putKey]
  split_ifs <;> rfl

theorem commit_foldl_seen (s : DiskSet) (keys : List Bytes) {added : DiskSet}
    {seen : List Bytes}
    (agree : ∀ key, added.has key = true ↔ key ∈ seen ∨ s.has key = true) :
    (keys.foldl (fun (state : SetCommit × List Bytes) key =>
      if key ∈ state.2 ∨ s.has key = true then state
      else (state.1 + memberHash V key, key :: state.2)) (added.commit, seen)).1 =
      (keys.foldl (add V) added).commit := by
  induction keys generalizing added seen with
  | nil => rfl
  | cons key keys ih =>
    rw [List.foldl_cons, List.foldl_cons]
    have commit := commit_add (V := V) added key
    by_cases known : key ∈ seen ∨ s.has key = true
    · rw [if_pos ((agree key).mpr known)] at commit
      rw [if_pos known, ← commit]
      refine ih fun other => ?_
      rw [has_add, agree other]
      exact ⟨fun either => either.elim id fun same => same ▸ known, Or.inl⟩
    · rw [if_neg (mt (agree key).mp known)] at commit
      rw [if_neg known, ← commit]
      refine ih fun other => ?_
      rw [has_add, agree other, List.mem_cons]
      tauto

theorem commitAfter_eq (s : DiskSet) (keys : List Bytes) :
    s.commitAfter V keys = (keys.foldl (add V) s).commit := by
  rw [commitAfter]
  match keys with
  | [] => rfl
  | [key] =>
    have alone : ¬1 < [key].length := Nat.lt_irrefl 1
    simp only [List.foldl_cons, List.foldl_nil, commit_add, alone, false_and, false_or, if_false]
    split_ifs <;> rfl
  | first :: second :: keys =>
    have many : 1 < (first :: second :: keys).length := Nat.succ_lt_succ (Nat.succ_pos _)
    simp only [many, true_and, if_true]
    exact commit_foldl_seen s _ fun key => by simp

end DiskSet

/-! ## The calls of the chain -/

/-- The calls that change a persisted set. -/
inductive SetCall where
  | add (key : Bytes)
  | truncate (n : Nat)
  | setCount (n : Nat)
  | resetCount

/-- What a call does to the set on disk. -/
def DiskSet.call (V : Primitives) (s : DiskSet) : SetCall → DiskSet
  | .add key => s.add V key
  | .truncate n => s.truncate n
  | .setCount n => s.setCount n
  | .resetCount => s.resetCount

/-- The added keys that were not cut off, and the count. -/
structure SetLog where
  keys : List Bytes := []
  count : Nat := 0

namespace SetLog

/-- No truncation is awaited. -/
def Settled (l : SetLog) : Prop := l.count = l.keys.length

/-- The chain adds to a settled set, truncates to its count or an earlier one, and takes over a
count the set once had. -/
def Permits (l : SetLog) : SetCall → Prop
  | .add _ => l.Settled
  | .truncate n => n ≤ l.count
  | .setCount n => n ≤ l.keys.length
  | .resetCount => True

/-- What a call does to the log of insertions. -/
def call (l : SetLog) : SetCall → SetLog
  | .add key => ⟨l.keys ++ [key], l.keys.length + 1⟩
  | .truncate n => ⟨l.keys.take n, n⟩
  | .setCount n => { l with count := n }
  | .resetCount => { l with count := 0 }

/-- Calls that are permitted one after the other. -/
def PermitsAll (l : SetLog) : List SetCall → Prop
  | [] => True
  | c :: calls => l.Permits c ∧ (l.call c).PermitsAll calls

theorem within_call {l : SetLog} (within : l.count ≤ l.keys.length) {c : SetCall}
    (permitted : l.Permits c) : (l.call c).count ≤ (l.call c).keys.length := by
  cases c with
  | add key => exact (@List.length_append _ l.keys [key]).ge
  | truncate n => exact (List.length_take_of_le (le_trans permitted within)).ge
  | setCount n => exact permitted
  | resetCount => exact Nat.zero_le _

theorem within_calls {calls : List SetCall} {l : SetLog} (within : l.count ≤ l.keys.length)
    (permitted : l.PermitsAll calls) :
    (calls.foldl call l).count ≤ (calls.foldl call l).keys.length := by
  induction calls generalizing l with
  | nil => exact within
  | cons c calls ih => exact ih (within_call within permitted.1) permitted.2

theorem PermitsAll.split {before after : List SetCall} {l : SetLog}
    (permitted : l.PermitsAll (before ++ after)) :
    l.PermitsAll before ∧ (before.foldl call l).PermitsAll after := by
  induction before generalizing l with
  | nil => exact ⟨trivial, permitted⟩
  | cons c before ih =>
    obtain ⟨first, rest⟩ := ih permitted.2
    exact ⟨⟨permitted.1, first⟩, rest⟩

/-- What is not cut off stays as it was added. -/
theorem take_calls {calls : List SetCall} {l : SetLog} {n : Nat} (enough : n ≤ l.keys.length)
    (within : l.count ≤ l.keys.length) (permitted : l.PermitsAll calls)
    (kept : ∀ m, SetCall.truncate m ∈ calls → n ≤ m) :
    (calls.foldl call l).keys.take n = l.keys.take n ∧
      n ≤ (calls.foldl call l).keys.length := by
  induction calls generalizing l with
  | nil => exact ⟨rfl, enough⟩
  | cons c calls ih =>
    have here : (l.call c).keys.take n = l.keys.take n ∧ n ≤ (l.call c).keys.length := by
      cases c with
      | add key =>
        refine ⟨List.take_append_of_le_length enough, ?_⟩
        exact enough.trans (List.length_append.ge.trans' (Nat.le_add_right _ _))
      | truncate m =>
        have later := kept m List.mem_cons_self
        have below : m ≤ l.keys.length := le_trans permitted.1 within
        refine ⟨?_, later.trans (List.length_take_of_le below).ge⟩
        change (l.keys.take m).take n = _
        rw [List.take_take, Nat.min_eq_left later]
      | setCount m => exact ⟨rfl, enough⟩
      | resetCount => exact ⟨rfl, enough⟩
    obtain ⟨same, still⟩ := ih here.2 (within_call within permitted.1) permitted.2
      fun m member => kept m (List.mem_cons_of_mem _ member)
    exact ⟨same.trans here.1, still⟩

end SetLog

namespace DiskSet

variable {V}

/-- The set of a log with a count that was taken over. -/
def held (V : Primitives) (l : SetLog) : DiskSet :=
  { fed V l.keys with count := l.count, commit := (fed V (l.keys.take l.count)).commit }

theorem held_settled {l : SetLog} (settled : l.Settled) : held V l = fed V l.keys := by
  rw [held, settled, List.take_length, ← (fed_holds V l.keys).count]

/-- One call on the set of a log. -/
theorem held_call {l : SetLog} (within : l.count ≤ l.keys.length) {c : SetCall}
    (permitted : l.Permits c) : (held V l).call V c = held V (l.call c) := by
  cases c with
  | add key =>
    have settled : (l.call (.add key)).Settled :=
      (@List.length_append _ l.keys [key]).symm
    rw [held_settled settled, held_settled permitted]
    exact (fed_append _ _).symm
  | truncate n =>
    have below : n ≤ l.keys.length := le_trans permitted within
    have settled : (l.call (.truncate n)).Settled := (List.length_take_of_le below).symm
    rw [held_settled settled]
    exact truncate_fed l.keys below
  | setCount n =>
    change ({ fed V l.keys with count := n, commit := (fed V l.keys).readCommit n } : DiskSet) = _
    rw [readCommit_fed l.keys permitted]
    rfl
  | resetCount => rfl

theorem calls_held {calls : List SetCall} {l : SetLog} (within : l.count ≤ l.keys.length)
    (permitted : l.PermitsAll calls) :
    calls.foldl (call V) (held V l) = held V (calls.foldl SetLog.call l) := by
  induction calls generalizing l with
  | nil => rfl
  | cons c calls ih =>
    rw [List.foldl_cons, List.foldl_cons, held_call within permitted.1]
    exact ih (SetLog.within_call within permitted.1) permitted.2

theorem truncate_held {l : SetLog} {n : Nat} (within : n ≤ l.keys.length) :
    (held V l).truncate n = fed V (l.keys.take n) :=
  truncate_fed l.keys within

/-- The members the count covers. -/
theorem mem_covered {l : SetLog} (within : l.count ≤ l.keys.length) {key : Bytes} :
    key ∈ l.keys.take l.count ↔
      ∃ index < (held V l).count, (held V l).db.idx[index]? = some key := by
  have place : ∀ index : Nat, (held V l).db.idx[index]? = firstAt l.keys index :=
    (fed_holds V l.keys).idx
  constructor
  · intro member
    obtain ⟨index, first⟩ := exists_firstAt member
    have below : index < l.count := by
      by_contra beyond
      rw [firstAt_beyond (by rw [List.length_take_of_le within]; omega)] at first
      exact nomatch first
    exact ⟨index, below, by rw [place, ← firstAt_take below, first]⟩
  · rintro ⟨index, below, found⟩
    change index < l.count at below
    rw [place, ← firstAt_take below] at found
    exact List.mem_of_getElem? (firstAt_eq_some.mp found).1

theorem held_has (l : SetLog) {key : Bytes} : (held V l).has key = true ↔ key ∈ l.keys :=
  (fed_holds V l.keys).has

/-- **Rollback.** After any calls of the chain, truncating to the count of an earlier state
since which nothing was cut off below it yields that state; the commitment is the sum over
the members that the count covers, which are all members when no truncation is awaited; and the
predicted commitment is the one after adding. -/
theorem rollback (V : Primitives) {calls : List SetCall}
    (permitted : ({} : SetLog).PermitsAll calls) :
    (∀ before after, calls = before ++ after → (before.foldl SetLog.call {}).Settled →
      (∀ m, SetCall.truncate m ∈ after → (before.foldl (call V) {}).count ≤ m) →
        (calls.foldl (call V) {}).truncate (before.foldl (call V) {}).count =
          before.foldl (call V) {}) ∧
    (∃ S : Finset Bytes,
      (∀ key, key ∈ S ↔ ∃ index < (calls.foldl (call V) {}).count,
        (calls.foldl (call V) {}).db.idx[index]? = some key) ∧
      (calls.foldl (call V) {}).commit = ∑ key ∈ S, memberHash V key) ∧
    ((calls.foldl SetLog.call {}).Settled → ∀ key,
      (calls.foldl (call V) {}).has key = true ↔ ∃ index < (calls.foldl (call V) {}).count,
        (calls.foldl (call V) {}).db.idx[index]? = some key) ∧
    (∀ keys, (calls.foldl (call V) {}).commitAfter V keys =
      (keys.foldl (add V) (calls.foldl (call V) {})).commit) := by
  have start : held V {} = {} := rfl
  have reached := calls_held (V := V) (Nat.le_refl 0) permitted
  have within := SetLog.within_calls (Nat.le_refl 0) permitted
  rw [start] at reached
  refine ⟨?_, ?_, ?_, fun keys => commitAfter_eq _ keys⟩
  · intro before after split settled kept
    rw [split] at permitted
    obtain ⟨first, second⟩ := permitted.split
    have earlier := calls_held (V := V) (Nat.le_refl 0) first
    rw [start, held_settled settled] at earlier
    have count : (before.foldl (call V) {}).count = (before.foldl SetLog.call {}).keys.length := by
      rw [earlier, (fed_holds V _).count]
    rw [count] at kept ⊢
    obtain ⟨same, still⟩ := SetLog.take_calls (Nat.le_refl _) settled.le second kept
    rw [← List.foldl_append] at same still
    rw [split] at reached
    rw [split, reached, truncate_held still, same, List.take_length, earlier]
  · rw [reached]
    generalize calls.foldl SetLog.call {} = l at within
    refine ⟨(l.keys.take l.count).toFinset, fun key => ?_, fed_commit _⟩
    rw [List.mem_toFinset, mem_covered within]
  · rw [reached]
    intro settled key
    rw [held_has, ← mem_covered within, settled, List.take_length]

/-- A key added twice is cut off once with the key after it. -/
theorem rollback_of_duplicate :
    (([.add [1], .add [1], .add [2]] : List SetCall).foldl
      (call (Testnet.primitives Testnet.checksum)) {}).truncate 1 =
      ({} : DiskSet).add (Testnet.primitives Testnet.checksum) [1] := by
  have restored := (@rollback (Testnet.primitives Testnet.checksum)
    [.add [1], .add [1], .add [2]] ⟨rfl, rfl, rfl, trivial⟩).1 [.add [1]] [.add [1], .add [2]] rfl
    rfl fun m member => by simp at member
  exact restored

end DiskSet

end Obscura
