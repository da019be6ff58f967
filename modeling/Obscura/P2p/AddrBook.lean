import Mathlib.Data.List.Flatten
import Obscura.Lib.OrdMap
import Obscura.P2p.HostPort

/-! # The address book

Known addresses with a counter for each group, which bounds how many addresses a group
contributes. The counters are kept by hand. They stay exact through insertion and eviction, and
through a reload from disk unless two addresses that are not UTF-8 are written as one. Samples
are drawn group by group in rounds.
-/

namespace Obscura.P2p

open Wire

/-- The most addresses a book keeps. -/
def maxAddrBook : Nat := 4096

/-- The failures after which an address is dropped. -/
def maxAddrFails : Int := 10

/-- The most addresses of one network group. -/
def maxPerGroup : Nat := 32

/-- An entry of the book, and of the file it is saved to. -/
structure AddrInfo where
  addr : Bytes
  lastSeen : Int := 0
  fails : Int := 0
deriving DecidableEq

/-- The entries by address, and the number of entries of each group. -/
structure AddrBook where
  addrs : OrdMap Bytes AddrInfo := ∅
  groups : OrdMap Bytes Nat := ∅

/-! ## Strings in JSON -/

/-- The size that the first byte of a UTF-8 sequence announces, and the range of the second. -/
def utf8Lead (first : UInt8) : Nat × UInt8 × UInt8 :=
  if first < 0x80 then (1, 0x80, 0xBF)
  else if 0xC2 ≤ first ∧ first ≤ 0xDF then (2, 0x80, 0xBF)
  else if first = 0xE0 then (3, 0xA0, 0xBF)
  else if first = 0xED then (3, 0x80, 0x9F)
  else if 0xE1 ≤ first ∧ first ≤ 0xEF then (3, 0x80, 0xBF)
  else if first = 0xF0 then (4, 0x90, 0xBF)
  else if 0xF1 ≤ first ∧ first ≤ 0xF3 then (4, 0x80, 0xBF)
  else if first = 0xF4 then (4, 0x80, 0x8F)
  else (0, 0x80, 0xBF)

/-- The length of the character at the front; zero where there is none. -/
def runeLength : Bytes → Nat
  | [] => 0
  | first :: rest =>
    let (size, low, high) := utf8Lead first
    let tail := rest.take (size - 1)
    let second := tail.headD low
    if tail.length + 1 = size ∧ low ≤ second ∧ second ≤ high ∧
        (tail.drop 1).all (fun byte => 0x80 ≤ byte ∧ byte ≤ 0xBF) then size else 0

/-- Bytes that are no character become the replacement character. -/
def coerceUTF8 : (fuel : Nat) → Bytes → Bytes
  | 0, _ => []
  | _, [] => []
  | fuel + 1, first :: rest =>
    let size := runeLength (first :: rest)
    if size = 0 then [0xEF, 0xBF, 0xBD] ++ coerceUTF8 fuel rest
    else (first :: rest).take size ++ coerceUTF8 fuel ((first :: rest).drop size)

/-- A string after it was written to JSON and read back. -/
def jsonString (text : Bytes) : Bytes := coerceUTF8 text.length text

/-! ## Operations -/

namespace AddrBook

/-- The counter of a group. -/
def count (b : AddrBook) (g : Bytes) : Nat := b.groups[g]?.getD 0

/-- Store an address and count it. -/
def record (b : AddrBook) (a : AddrInfo) : AddrBook where
  addrs := b.addrs.insert a.addr a
  groups := b.groups.insert (ipGroup a.addr) (b.count (ipGroup a.addr) + 1)

/-- `LoadAddrBook`: a file's entries as far as their groups have room. -/
def load (list : List AddrInfo) : AddrBook :=
  list.foldl (fun b a => if b.count (ipGroup a.addr) < maxPerGroup then b.record a else b) {}

/-- `Add`: a well-formed address that is new, while the book and its group have room. -/
def add (b : AddrBook) (addr : Bytes) : AddrBook :=
  if (splitHostPort addr).isNone then b
  else if maxAddrBook ≤ b.addrs.size then b
  else if b.addrs[addr]?.isSome then b
  else if maxPerGroup ≤ b.count (ipGroup addr) then b
  else b.record { addr }

/-- `Seen`: the time of contact, with the failures forgotten. -/
def seen (b : AddrBook) (addr : Bytes) (now : Int) : AddrBook :=
  match b.addrs[addr]? with
  | some a => { b with addrs := b.addrs.insert addr { a with lastSeen := now, fails := 0 } }
  | none =>
    if maxAddrBook ≤ b.addrs.size ∨ maxPerGroup ≤ b.count (ipGroup addr) then b
    else b.record { addr, lastSeen := now }

/-- `Failed`: one failure more; an address with too many of them goes. -/
def failed (b : AddrBook) (addr : Bytes) : AddrBook :=
  match b.addrs[addr]? with
  | none => b
  | some a =>
    if maxAddrFails < a.fails + 1 then
      { addrs := b.addrs.erase addr
        groups :=
          if 0 < b.count (ipGroup addr) then
            b.groups.insert (ipGroup addr) (b.count (ipGroup addr) - 1)
          else b.groups }
    else
      { b with addrs := b.addrs.insert addr { a with fails := a.fails + 1 } }

/-- The entries that `Save` writes, up to their order. -/
def entries (b : AddrBook) : List AddrInfo := b.addrs.toList.map Prod.snd

end AddrBook

/-- An entry as it is read back. -/
def AddrInfo.json (a : AddrInfo) : AddrInfo := { a with addr := jsonString a.addr }

/-- What happens to a book between two restarts. -/
inductive BookEvent
  | add (addr : Bytes)
  | seen (addr : Bytes) (now : Int)
  | failed (addr : Bytes)
  /-- The book is saved with its entries in this order, and loaded. -/
  | reload (list : List AddrInfo)

namespace AddrBook

/-- The book after an event. -/
def step (b : AddrBook) : BookEvent → AddrBook
  | .add addr => b.add addr
  | .seen addr now => b.seen addr now
  | .failed addr => b.failed addr
  | .reload list => load (list.map AddrInfo.json)

/-- What is saved are the entries of the book. -/
def Fits (b : AddrBook) : BookEvent → Prop
  | .reload list => list.Perm b.entries
  | _ => True

/-- The addresses are still different when they are read back. -/
def Distinct : BookEvent → Prop
  | .reload list => (list.map fun a => jsonString a.addr).Nodup
  | _ => True

/-- The books of the runs whose events have a property. -/
inductive Reached (allowed : BookEvent → Prop) : AddrBook → Prop
  | new : Reached allowed {}
  | step {b : AddrBook} {event : BookEvent} (earlier : Reached allowed b) (fits : b.Fits event)
      (clean : allowed event) : Reached allowed (b.step event)

/-! ## Exact counters -/

/-- The stored addresses. -/
def stored (b : AddrBook) : List Bytes := b.addrs.toList.map Prod.fst

/-- The number of stored addresses of a group. -/
def inGroup (b : AddrBook) (g : Bytes) : Nat := b.stored.countP fun addr => ipGroup addr = g

/-- Counters are exact and limits are kept. -/
structure Sound (b : AddrBook) : Prop where
  keyed : ∀ (addr : Bytes) (a : AddrInfo), b.addrs[addr]? = some a → a.addr = addr
  counts : ∀ g, b.count g = b.inGroup g
  capped : ∀ g, b.inGroup g ≤ maxPerGroup
  bounded : b.stored.length ≤ maxAddrBook

section Keys

variable {addrs : OrdMap Bytes AddrInfo} {addr : Bytes} {a : AddrInfo}

theorem keys_insert_new (absent : addrs[addr]? = none) (a : AddrInfo) :
    ((addrs.insert addr a).toList.map Prod.fst).Perm (addr :: addrs.toList.map Prod.fst) :=
  (OrdMap.toList_insert_perm addrs a absent).map Prod.fst

theorem keys_erase (found : addrs[addr]? = some a) :
    (addrs.toList.map Prod.fst).Perm (addr :: (addrs.erase addr).toList.map Prod.fst) := by
  have absent : (addrs.erase addr)[addr]? = none := by rw [OrdMap.lookup_erase, if_pos rfl]
  have back := keys_insert_new absent a
  rwa [OrdMap.insert_erase addrs found] at back

theorem keys_insert_known (found : addrs[addr]? = some a) (a' : AddrInfo) :
    ((addrs.insert addr a').toList.map Prod.fst).Perm (addrs.toList.map Prod.fst) := by
  have absent : (addrs.erase addr)[addr]? = none := by rw [OrdMap.lookup_erase, if_pos rfl]
  have again := keys_insert_new absent a'
  have same : (addrs.erase addr).insert addr a' = addrs.insert addr a' := by
    rw [← OrdMap.insert_insert (addrs.erase addr) addr a a', OrdMap.insert_erase addrs found]
  rw [same] at again
  exact again.trans (keys_erase found).symm

end Keys

theorem size_eq (b : AddrBook) : b.addrs.size = b.stored.length := by
  rw [stored, List.length_map, Std.ExtTreeMap.length_toList]

variable {b : AddrBook}

namespace Sound

theorem new : Sound {} where
  keyed addr a found := by simp at found
  counts g := rfl
  capped g := Nat.zero_le _
  bounded := Nat.zero_le _

/-- A new address for which there is room. -/
theorem record (sound : Sound b) {a : AddrInfo} (absent : b.addrs[a.addr]? = none)
    (room : b.count (ipGroup a.addr) < maxPerGroup) (space : b.stored.length < maxAddrBook) :
    Sound (b.record a) := by
  have keys : (b.record a).stored.Perm (a.addr :: b.stored) := keys_insert_new absent a
  have members : ∀ g, (b.record a).inGroup g =
      b.inGroup g + if ipGroup a.addr = g then 1 else 0 := fun g => by
    rw [inGroup, keys.countP_eq, List.countP_cons, inGroup]
    simp only [decide_eq_true_eq]
  have counter : ∀ g, (b.record a).count g =
      b.count g + if ipGroup a.addr = g then 1 else 0 := fun g => by
    unfold count AddrBook.record
    rw [OrdMap.lookup_insert]
    split_ifs with same
    · rw [← same]
      rfl
    · rfl
  constructor
  case keyed =>
    intro addr info found
    change (b.addrs.insert a.addr a)[addr]? = some info at found
    rw [OrdMap.lookup_insert] at found
    split_ifs at found with same
    · rw [← Option.some.inj found, same]
    · exact sound.keyed addr info found
  case counts =>
    intro g
    rw [counter, members, sound.counts]
  case capped =>
    intro g
    have here := sound.counts g
    have cap := sound.capped g
    rw [members]
    split_ifs with same
    · rw [same] at room
      omega
    · omega
  case bounded =>
    rw [keys.length_eq, List.length_cons]
    exact space

/-- A stored address with other data. -/
theorem update (sound : Sound b) {addr : Bytes} {a a' : AddrInfo}
    (found : b.addrs[addr]? = some a) (same : a'.addr = addr) :
    Sound { b with addrs := b.addrs.insert addr a' } := by
  have keys : ({ b with addrs := b.addrs.insert addr a' } : AddrBook).stored.Perm b.stored :=
    keys_insert_known found a'
  constructor
  case keyed =>
    intro other info found'
    change (b.addrs.insert addr a')[other]? = some info at found'
    rw [OrdMap.lookup_insert] at found'
    split_ifs at found' with equal
    · rw [← Option.some.inj found', same, equal]
    · exact sound.keyed other info found'
  case counts =>
    intro g
    rw [inGroup, keys.countP_eq]
    exact sound.counts g
  case capped =>
    intro g
    rw [inGroup, keys.countP_eq]
    exact sound.capped g
  case bounded =>
    rw [keys.length_eq]
    exact sound.bounded

theorem add (sound : Sound b) (addr : Bytes) : Sound (b.add addr) := by
  unfold AddrBook.add
  rw [size_eq]
  split_ifs with _ full known crowded
  · exact sound
  · exact sound
  · exact sound
  · exact sound
  · refine sound.record ?_ (not_le.mp crowded) (not_le.mp full)
    rwa [Bool.not_eq_true, Option.isSome_eq_false_iff, Option.isNone_iff_eq_none] at known

theorem seen (sound : Sound b) (addr : Bytes) (now : Int) : Sound (b.seen addr now) := by
  unfold AddrBook.seen
  cases found : b.addrs[addr]? with
  | some a => exact sound.update found (sound.keyed addr a found)
  | none =>
    dsimp only
    rw [size_eq]
    split_ifs with full
    · exact sound
    · rw [not_or, not_le, not_le] at full
      exact sound.record found full.2 full.1

/-- A failure keeps the counters right. -/
theorem failed (sound : Sound b) (addr : Bytes) : Sound (b.failed addr) := by
  unfold AddrBook.failed
  cases found : b.addrs[addr]? with
  | none => exact sound
  | some a =>
    dsimp only
    split_ifs with evicted counted
    · have keys := keys_erase found
      have members : ∀ g, b.inGroup g =
          (({ b with addrs := b.addrs.erase addr } : AddrBook).inGroup g) +
            if ipGroup addr = g then 1 else 0 := fun g => by
        rw [inGroup, stored, keys.countP_eq, List.countP_cons]
        simp only [decide_eq_true_eq]
        rfl
      constructor
      case keyed =>
        intro other info found'
        change (b.addrs.erase addr)[other]? = some info at found'
        rw [OrdMap.lookup_erase] at found'
        split_ifs at found'
        exact sound.keyed other info found'
      case counts =>
        intro g
        have here := sound.counts g
        have split := members g
        change (b.groups.insert _ _)[g]?.getD 0 = _
        rw [OrdMap.lookup_insert]
        by_cases same : ipGroup addr = g
        · rw [if_pos same, Option.getD_some, same, here, split, if_pos same]
          exact Nat.add_sub_cancel _ _
        · rw [if_neg same] at split ⊢
          exact here.trans split
      case capped =>
        intro g
        have cap := sound.capped g
        rw [members g] at cap
        exact (Nat.le_add_right _ _).trans cap
      case bounded =>
        have cap := sound.bounded
        rw [stored, keys.length_eq, List.length_cons] at cap
        exact (Nat.le_succ _).trans cap
    · -- a stored address is counted
      refine absurd ?_ counted
      rw [sound.counts, inGroup, List.countP_pos_iff]
      refine ⟨addr, List.mem_map.mpr ⟨(addr, a), ?_, rfl⟩, decide_eq_true rfl⟩
      exact Std.ExtTreeMap.mem_toList_iff_getElem?_eq_some.mpr found
    · exact sound.update found (sound.keyed addr a found)

/-- Loading distinct addresses. -/
theorem foldl_load {list : List AddrInfo} (sound : Sound b)
    (distinct : (list.map AddrInfo.addr).Nodup)
    (absent : ∀ a ∈ list, b.addrs[a.addr]? = none)
    (space : b.stored.length + list.length ≤ maxAddrBook) :
    Sound (list.foldl
      (fun b a => if b.count (ipGroup a.addr) < maxPerGroup then b.record a else b) b) := by
  induction list generalizing b with
  | nil => exact sound
  | cons a list ih =>
    rw [List.map_cons, List.nodup_cons] at distinct
    rw [List.length_cons] at space
    rw [List.foldl_cons]
    have here := absent a List.mem_cons_self
    split_ifs with room
    · have keys : (b.record a).stored.Perm (a.addr :: b.stored) := keys_insert_new here a
      refine ih (sound.record here room (by omega)) distinct.2 (fun a' member => ?_) ?_
      · change (b.addrs.insert a.addr a)[a'.addr]? = none
        rw [OrdMap.lookup_insert, if_neg]
        · exact absent a' (List.mem_cons_of_mem a member)
        · intro same
          exact distinct.1 (List.mem_map.mpr ⟨a', member, same.symm⟩)
      · rw [keys.length_eq, List.length_cons]
        omega
    · exact ih sound distinct.2 (fun a' member => absent a' (List.mem_cons_of_mem a member))
        (by omega)

theorem reload (sound : Sound b) {list : List AddrInfo} (listed : list.Perm b.entries)
    (distinct : (list.map fun a => jsonString a.addr).Nodup) :
    Sound (load (list.map AddrInfo.json)) := by
  refine new.foldl_load ?_ (fun a _ => rfl) ?_
  · rw [List.map_map]
    exact distinct
  · have cap := sound.bounded
    rw [stored, List.length_map] at cap
    rw [List.length_map, listed.length_eq, entries, List.length_map]
    exact (Nat.zero_add _).le.trans cap

theorem step (sound : Sound b) {event : BookEvent} (fits : b.Fits event) (clean : Distinct event) :
    Sound (b.step event) := by
  cases event with
  | add addr => exact sound.add addr
  | seen addr now => exact sound.seen addr now
  | failed addr => exact sound.failed addr
  | reload list => exact sound.reload fits clean

end Sound

theorem Reached.sound (reached : Reached Distinct b) : Sound b := by
  induction reached with
  | new => exact Sound.new
  | step _ fits clean ih => exact ih.step fits clean

/-! ## Samples -/

/-- One address is put into the bucket of its group; new groups come last. -/
def bucket (buckets : List Bytes × OrdMap Bytes (List Bytes)) (a : Bytes) :
    List Bytes × OrdMap Bytes (List Bytes) :=
  let g := ipGroup a
  (if buckets.2[g]?.isNone then buckets.1 ++ [g] else buckets.1,
    buckets.2.insert g (buckets.2[g]?.getD [] ++ [a]))

/-- The groups in the order they are met, and the addresses of each. -/
def buckets (addrs : List Bytes) : List Bytes × OrdMap Bytes (List Bytes) :=
  addrs.foldl bucket ([], ∅)

section Rounds

variable (byGroup : Bytes → List Bytes) (n : Nat)

/-- One round over the groups; the second component says whether an address was found, the
third whether the sample is full. -/
def sampleRound (round : Nat) : List Bytes → List Bytes → Bool → List Bytes × Bool × Bool
  | [], out, progressed => (out, progressed, false)
  | g :: order, out, progressed =>
    match (byGroup g)[round]? with
    | none => sampleRound round order out progressed
    | some a =>
      let out := out ++ [a]
      if n ≤ out.length then (out, true, true) else sampleRound round order out true

/-- Rounds until the sample is full or a round finds nothing. -/
def sampleLoop (order : List Bytes) : (fuel : Nat) → (round : Nat) → List Bytes → List Bytes
  | 0, _, out => out
  | fuel + 1, round, out =>
    if out.length < n then
      match sampleRound byGroup n round order out false with
      | (out, progressed, full) =>
        if full || !progressed then out else sampleLoop order fuel (round + 1) out
    else
      out

end Rounds

/-- `Sample` after the groups and the addresses of each group have been shuffled. -/
def sample (b : AddrBook) (order : List Bytes) (byGroup : Bytes → List Bytes) (n : Nat) :
    List Bytes :=
  sampleLoop byGroup n order (b.addrs.size + 1) 0 []

/-- What the shuffles leave of the buckets, which list the addresses in the order of the map. -/
structure Shuffled (b : AddrBook) (order : List Bytes) (byGroup : Bytes → List Bytes) : Prop where
  listed : ∃ addrs, addrs.Perm b.stored ∧ order.Perm (buckets addrs).1 ∧
    ∀ g, (byGroup g).Perm ((buckets addrs).2[g]?.getD [])

/-- Every address stands in the bucket of its group. -/
theorem buckets_spec (addrs : List Bytes) :
    (buckets addrs).1.Nodup ∧
    (∀ g, g ∈ (buckets addrs).1 ↔ (buckets addrs).2[g]? ≠ none) ∧
    (∀ g, (buckets addrs).2[g]? ≠ none ↔ ∃ a ∈ addrs, ipGroup a = g) ∧
    ∀ g, (buckets addrs).2[g]?.getD [] = addrs.filter fun a => ipGroup a = g := by
  induction addrs using List.reverseRecOn with
  | nil => simp [buckets]
  | append_singleton addrs a ih =>
    obtain ⟨nodup, order, known, lists⟩ := ih
    have step : buckets (addrs ++ [a]) = bucket (buckets addrs) a := by
      rw [buckets, List.foldl_append]
      rfl
    rw [step, bucket]
    dsimp only
    refine ⟨?_, fun g => ?_, fun g => ?_, fun g => ?_⟩
    · split_ifs with new
      · rw [Option.isNone_iff_eq_none] at new
        refine List.nodup_append.mpr ⟨nodup, List.nodup_singleton _, ?_⟩
        intro g member g' last same
        rw [List.mem_singleton] at last
        rw [same, last] at member
        exact (order _).mp member new
      · exact nodup
    · rw [OrdMap.lookup_insert]
      by_cases same : ipGroup a = g
      · rw [if_pos same]
        refine iff_of_true ?_ (Option.some_ne_none _)
        split_ifs with new
        · simp [same]
        · rw [Option.isNone_iff_eq_none] at new
          rw [← same]
          exact (order _).mpr new
      · rw [if_neg same, ← order g]
        split_ifs
        · simp [Ne.symm same]
        · rfl
    · rw [OrdMap.lookup_insert]
      split_ifs with same
      · exact iff_of_true (Option.some_ne_none _) ⟨a, by simp, same⟩
      · rw [known g]
        simp [same]
    · rw [OrdMap.lookup_insert, List.filter_append, ← lists g]
      by_cases same : ipGroup a = g
      · rw [if_pos same, same]
        simp [same]
      · rw [if_neg same]
        simp [same]

/-- The groups of the stored addresses, once each, with their addresses. -/
structure Grouped (b : AddrBook) (order : List Bytes) (byGroup : Bytes → List Bytes) : Prop where
  nodup : order.Nodup
  groups : ∀ g, g ∈ order ↔ ∃ a ∈ b.stored, ipGroup a = g
  lists : ∀ g, (byGroup g).Perm (b.stored.filter fun a => ipGroup a = g)

theorem Shuffled.grouped {order : List Bytes} {byGroup : Bytes → List Bytes}
    (shuffled : Shuffled b order byGroup) : Grouped b order byGroup := by
  obtain ⟨addrs, perm, ordered, lists⟩ := shuffled.listed
  obtain ⟨nodup, order', known, filtered⟩ := buckets_spec addrs
  refine ⟨ordered.nodup_iff.mpr nodup, fun g => ?_, fun g => ?_⟩
  · rw [ordered.mem_iff, order', known]
    simp only [perm.mem_iff]
  · have bucketed := lists g
    rw [filtered g] at bucketed
    exact bucketed.trans (perm.filter _)

section Sampling

variable {order : List Bytes} {byGroup : Bytes → List Bytes} {n : Nat}

/-- The addresses of one round. -/
def roundItems (byGroup : Bytes → List Bytes) (order : List Bytes) (round : Nat) : List Bytes :=
  order.filterMap fun g => (byGroup g)[round]?

/-- A round adds the addresses of its number, as far as there is room. -/
theorem sampleRound_eq (round : Nat) (out : List Bytes) (progressed : Bool)
    (space : out.length < n) :
    sampleRound byGroup n round order out progressed =
      if out.length + (roundItems byGroup order round).length < n then
        (out ++ roundItems byGroup order round,
          progressed || !(roundItems byGroup order round).isEmpty, false)
      else
        ((out ++ roundItems byGroup order round).take n, true, true) := by
  induction order generalizing out progressed with
  | nil => simp [sampleRound, roundItems, space]
  | cons g order ih =>
    cases found : (byGroup g)[round]? with
    | none =>
      have items : roundItems byGroup (g :: order) round = roundItems byGroup order round :=
        List.filterMap_cons_none found
      rw [sampleRound, found, items]
      exact ih out progressed space
    | some a =>
      have items : roundItems byGroup (g :: order) round =
          a :: roundItems byGroup order round := List.filterMap_cons_some found
      have shift : out ++ a :: roundItems byGroup order round =
          out ++ [a] ++ roundItems byGroup order round := List.append_cons ..
      rw [sampleRound, found, items, shift]
      dsimp only
      rw [List.length_append, List.length_singleton, List.length_cons]
      split_ifs with full some some
      · omega
      · have exactly : n = (out ++ [a]).length := by
          rw [List.length_append, List.length_singleton]
          omega
        rw [exactly, List.take_left]
      · rw [ih (out ++ [a]) true (by rw [List.length_append, List.length_singleton]; omega),
          if_pos (by rw [List.length_append, List.length_singleton]; omega)]
        simp
      · rw [ih (out ++ [a]) true (by rw [List.length_append, List.length_singleton]; omega),
          if_neg (by rw [List.length_append, List.length_singleton]; omega)]

/-- The addresses of a number of rounds. -/
def rounds (byGroup : Bytes → List Bytes) (order : List Bytes) (first count : Nat) : List Bytes :=
  (List.range' first count).flatMap (roundItems byGroup order)

theorem roundItems_done {round : Nat} (done : roundItems byGroup order round = []) (count : Nat) :
    rounds byGroup order round count = [] := by
  rw [rounds, List.flatMap_eq_nil_iff]
  intro later listed
  have above := (List.mem_range'_1.mp listed).1
  rw [roundItems, List.filterMap_eq_nil_iff] at done ⊢
  intro g member
  have short := List.getElem?_eq_none_iff.mp (done g member)
  exact List.getElem?_eq_none_iff.mpr (short.trans above)

/-- The loop takes the addresses round by round. -/
theorem sampleLoop_eq (fuel round : Nat) (out : List Bytes) (space : out.length ≤ n) :
    sampleLoop byGroup n order fuel round out =
      (out ++ rounds byGroup order round fuel).take n := by
  induction fuel generalizing round out with
  | zero => rw [sampleLoop, rounds, List.range'_zero, List.flatMap_nil, List.append_nil,
      List.take_of_length_le space]
  | succ fuel ih =>
    have next : rounds byGroup order round (fuel + 1) =
        roundItems byGroup order round ++ rounds byGroup order (round + 1) fuel := by
      rw [rounds, List.range'_succ, List.flatMap_cons]
      rfl
    rw [sampleLoop, next, ← List.append_assoc]
    split_ifs with below
    · rw [sampleRound_eq round out false below]
      split_ifs with room
      · dsimp only
        rw [Bool.false_or, Bool.false_or, Bool.not_not]
        split_ifs with idle
        · have nothing := List.isEmpty_iff.mp idle
          have later : rounds byGroup order (round + 1) fuel = [] := by
            have all := roundItems_done nothing (fuel + 1)
            rw [next, nothing, List.nil_append] at all
            exact all
          rw [nothing, later, List.append_nil, List.append_nil, List.take_of_length_le space]
        · exact ih (round + 1) _ (by rw [List.length_append]; omega)
      · dsimp only
        rw [Bool.true_or, if_pos rfl]
        refine (List.take_append_of_le_length ?_).symm
        rw [List.length_append]
        omega
    · have full : n = out.length := by omega
      rw [List.append_assoc, full, List.take_left]

theorem rounds_succ (count : Nat) :
    rounds byGroup order 0 (count + 1) =
      rounds byGroup order 0 count ++ roundItems byGroup order count := by
  rw [rounds, List.range'_1_concat, List.flatMap_append, Nat.zero_add, List.flatMap_cons,
    List.flatMap_nil, List.append_nil]
  rfl

theorem rounds_perm (count : Nat) :
    (rounds byGroup order 0 count).Perm (order.flatMap fun g => (byGroup g).take count) := by
  induction count with
  | zero => simp [rounds]
  | succ count ih =>
    have items : roundItems byGroup order count =
        order.flatMap fun g => (byGroup g)[count]?.toList :=
      List.filterMap_eq_flatMap_toList _ _
    simp only [List.take_add_one]
    rw [rounds_succ, items]
    exact (ih.append_right _).trans (List.flatMap_append_perm order _ _)

theorem Grouped.group_eq (grouped : Grouped b order byGroup) {g a : Bytes}
    (member : a ∈ byGroup g) : ipGroup a = g := by
  have filtered := (grouped.lists g).mem_iff.mp member
  exact of_decide_eq_true (List.mem_filter.mp filtered).2

theorem Grouped.length_eq (grouped : Grouped b order byGroup) (g : Bytes) :
    (byGroup g).length = b.inGroup g := by
  rw [(grouped.lists g).length_eq, inGroup, List.countP_eq_length_filter]

theorem stored_nodup (b : AddrBook) : b.stored.Nodup := by
  rw [stored, Std.ExtTreeMap.map_fst_toList_eq_keys]
  exact Std.ExtTreeMap.nodup_keys

/-- All addresses together are the stored ones. -/
theorem Grouped.flatMap_perm (grouped : Grouped b order byGroup) :
    (order.flatMap byGroup).Perm b.stored := by
  have members : ∀ g a, a ∈ byGroup g ↔ a ∈ b.stored ∧ ipGroup a = g := fun g a => by
    rw [(grouped.lists g).mem_iff, List.mem_filter, decide_eq_true_eq]
  refine (List.perm_ext_iff_of_nodup ?_ b.stored_nodup).mpr fun a => ?_
  · refine List.nodup_flatMap.mpr ⟨fun g _ => (grouped.lists g).nodup_iff.mpr (b.stored_nodup.filter _), ?_⟩
    refine grouped.nodup.imp fun apart a first second => ?_
    exact apart (((members _ a).mp first).2.symm.trans ((members _ a).mp second).2)
  · rw [List.mem_flatMap]
    constructor
    · rintro ⟨g, -, member⟩
      exact ((members g a).mp member).1
    · intro known
      exact ⟨ipGroup a, (grouped.groups _).mpr ⟨a, known, rfl⟩, (members _ a).mpr ⟨known, rfl⟩⟩

theorem Grouped.countP_take (grouped : Grouped b order byGroup) {g : Bytes} (listed : g ∈ order)
    (count : Nat) :
    (order.flatMap fun g => (byGroup g).take count).countP (fun a => ipGroup a = g) =
      min count (b.inGroup g) := by
  have other : ∀ groups : List Bytes, g ∉ groups →
      (groups.flatMap fun g => (byGroup g).take count).countP (fun a => ipGroup a = g) = 0 := by
    intro groups absent
    rw [List.countP_eq_zero]
    intro a member
    obtain ⟨g', listed', taken⟩ := List.mem_flatMap.mp member
    rw [decide_eq_true_eq, grouped.group_eq (List.mem_of_mem_take taken)]
    rintro rfl
    exact absent listed'
  obtain ⟨before, after, rfl⟩ := List.append_of_mem listed
  have apart := List.nodup_append.mp grouped.nodup
  have own : ((byGroup g).take count).countP (fun a => ipGroup a = g) =
      min count (b.inGroup g) := by
    rw [← grouped.length_eq, ← List.length_take, List.countP_eq_length]
    intro a taken
    exact decide_eq_true (grouped.group_eq (List.mem_of_mem_take taken))
  rw [List.flatMap_append, List.flatMap_cons, List.countP_append, List.countP_append, own,
    other before fun early => apart.2.2 g early g List.mem_cons_self rfl,
    other after (List.nodup_cons.mp apart.2.1).1, Nat.zero_add, Nat.add_zero]

theorem take_rounds (count n : Nat) :
    ∃ full partly, (rounds byGroup order 0 count).take n =
      rounds byGroup order 0 full ++ partly ∧
        partly.Sublist (roundItems byGroup order full) := by
  induction count with
  | zero => exact ⟨0, [], by simp [rounds], List.nil_sublist _⟩
  | succ count ih =>
    by_cases inside : n ≤ (rounds byGroup order 0 count).length
    · rw [rounds_succ, List.take_append_of_le_length inside]
      exact ih
    · refine ⟨count, (roundItems byGroup order count).take
        (n - (rounds byGroup order 0 count).length), ?_, List.take_sublist _ _⟩
      rw [rounds_succ, List.take_append, List.take_of_length_le (by omega)]

theorem Grouped.countP_rounds (grouped : Grouped b order byGroup) {g : Bytes} (listed : g ∈ order)
    (count : Nat) :
    (rounds byGroup order 0 count).countP (fun a => ipGroup a = g) = min count (b.inGroup g) :=
  ((rounds_perm count).countP_eq _).trans (grouped.countP_take listed count)

/-- Samples are stored addresses, as many as were asked for or as there are, and no group has
two more of them than another one that could give more. -/
theorem Grouped.sample_spec (grouped : Grouped b order byGroup) (n : Nat) :
    (b.sample order byGroup n).length = min n b.stored.length ∧
    (b.sample order byGroup n).Nodup ∧ (∀ a ∈ b.sample order byGroup n, a ∈ b.stored) ∧
    ∀ g g', (b.sample order byGroup n).countP (fun a => ipGroup a = g') < b.inGroup g' →
      (b.sample order byGroup n).countP (fun a => ipGroup a = g) ≤
        (b.sample order byGroup n).countP (fun a => ipGroup a = g') + 1 := by
  have taken : b.sample order byGroup n =
      (rounds byGroup order 0 (b.addrs.size + 1)).take n := by
    rw [sample, sampleLoop_eq _ _ _ (Nat.zero_le n), List.nil_append]
  have whole : (rounds byGroup order 0 (b.addrs.size + 1)).Perm b.stored := by
    have short : (fun g => (byGroup g).take (b.addrs.size + 1)) = byGroup := by
      funext g
      refine List.take_of_length_le ?_
      have fewer : b.inGroup g ≤ b.stored.length := List.countP_le_length
      rw [grouped.length_eq, size_eq]
      omega
    have perm := @rounds_perm order byGroup (b.addrs.size + 1)
    rw [short] at perm
    exact perm.trans grouped.flatMap_perm
  have known : ∀ a ∈ b.sample order byGroup n, a ∈ b.stored := fun a member => by
    rw [taken] at member
    exact whole.mem_iff.mp (List.mem_of_mem_take member)
  refine ⟨?_, ?_, known, fun g g' more => ?_⟩
  · rw [taken, List.length_take, whole.length_eq]
  · rw [taken]
    exact (whole.nodup_iff.mpr b.stored_nodup).sublist (List.take_sublist _ _)
  · obtain ⟨full, partly, parts, inside⟩ := @take_rounds order byGroup (b.addrs.size + 1) n
    rw [← taken] at parts
    have between : ∀ g ∈ order,
        min full (b.inGroup g) ≤ (b.sample order byGroup n).countP (fun a => ipGroup a = g) ∧
        (b.sample order byGroup n).countP (fun a => ipGroup a = g) ≤
          min (full + 1) (b.inGroup g) := fun g listed => by
      have before := grouped.countP_rounds listed full
      have after := grouped.countP_rounds listed (full + 1)
      have fewer := inside.countP_le (p := fun a => ipGroup a = g)
      rw [rounds_succ, List.countP_append, before] at after
      rw [parts, List.countP_append, before]
      omega
    have listed' : g' ∈ order := by
      obtain ⟨a, member, same⟩ := List.countP_pos_iff.mp (Nat.zero_lt_of_lt more)
      exact (grouped.groups g').mpr ⟨a, member, of_decide_eq_true same⟩
    have own := between g' listed'
    by_cases listed : g ∈ order
    · have other := between g listed
      omega
    · have none : (b.sample order byGroup n).countP (fun a => ipGroup a = g) = 0 := by
        rw [List.countP_eq_zero]
        intro a member same
        exact listed ((grouped.groups g).mpr ⟨a, known a member, of_decide_eq_true same⟩)
      omega

end Sampling

/-- **Diversity of the book.** In every book reached with reloads that keep the addresses apart,
the counters are exact and the limits are kept; samples are spread over the groups in every
book. -/
theorem book_diversity (b : AddrBook) :
    (Reached Distinct b → (∀ g, b.count g = b.inGroup g) ∧ (∀ g, b.inGroup g ≤ maxPerGroup) ∧
      b.stored.length ≤ maxAddrBook) ∧
    ∀ order byGroup n, Shuffled b order byGroup →
      (b.sample order byGroup n).length = min n b.stored.length ∧
      (b.sample order byGroup n).Nodup ∧ (∀ a ∈ b.sample order byGroup n, a ∈ b.stored) ∧
      ∀ g g', (b.sample order byGroup n).countP (fun a => ipGroup a = g') < b.inGroup g' →
        (b.sample order byGroup n).countP (fun a => ipGroup a = g) ≤
          (b.sample order byGroup n).countP (fun a => ipGroup a = g') + 1 :=
  ⟨fun reached => ⟨reached.sound.counts, reached.sound.capped, reached.sound.bounded⟩,
    fun _ _ n shuffled => shuffled.grouped.sample_spec n⟩

/-- Two addresses of one group and one of another. -/
def known : List Bytes :=
  [ascii "203.0.113.7:18080", ascii "203.0.113.8:18080", ascii "198.51.100.9:18080"]

/-- The book of the three addresses after a reload. -/
def reloaded : AddrBook := load ((known.map fun addr => { addr }).map AddrInfo.json)

theorem Reached.addAll (addrs : List Bytes) (reached : Reached Distinct b) :
    Reached Distinct (addrs.foldl AddrBook.add b) := by
  induction addrs generalizing b with
  | nil => exact reached
  | cons addr addrs ih => exact ih (@Reached.step _ _ (.add addr) reached trivial trivial)

theorem reloaded_reached : Reached Distinct reloaded := by
  have added := Reached.addAll known Reached.new
  refine @Reached.step _ _ (.reload (known.map fun addr => { addr })) added ?_ ?_
  · change List.Perm _ _
    decide
  · change List.Nodup _
    decide

/-- A sample of two is taken from both groups of the reloaded book. -/
theorem book_diversity_sample :
    (∀ g, reloaded.count g = reloaded.inGroup g) ∧
      let drawn := reloaded.sample (buckets reloaded.stored).1
        (fun g => (buckets reloaded.stored).2[g]?.getD []) 2
      drawn.length = 2 ∧ ∀ g g', drawn.countP (fun a => ipGroup a = g') < reloaded.inGroup g' →
        drawn.countP (fun a => ipGroup a = g) ≤ drawn.countP (fun a => ipGroup a = g') + 1 := by
  obtain ⟨counters, samples⟩ := book_diversity reloaded
  obtain ⟨length, -, -, spread⟩ := samples (buckets reloaded.stored).1
    (fun g => (buckets reloaded.stored).2[g]?.getD []) 2
    ⟨reloaded.stored, List.Perm.rfl, List.Perm.rfl, fun _ => List.Perm.rfl⟩
  have stored : reloaded.stored.length = 3 := by decide
  refine ⟨(counters reloaded_reached).1, ?_, spread⟩
  rw [length, stored]
  rfl

/-! ## Addresses that are written as one -/

/-- Two hosts of one byte each that is no character. -/
def first : Bytes := [0xFE, 58, 49]

/-- An address whose host is one byte outside UTF-8. -/
def second : Bytes := [0xFF, 58, 49]

/-- The group of both once they have been written. -/
def replacement : Bytes := [0xEF, 0xBF, 0xBD]

/-- A book with two addresses of one written form. -/
def pair : AddrBook := (({} : AddrBook).add first).add second

/-- The book once it has been saved and loaded. -/
def drifted : AddrBook := load ([{ addr := first }, { addr := second }].map AddrInfo.json)

theorem pair_entries : [({ addr := first } : AddrInfo), { addr := second }].Perm pair.entries := by
  decide

/-- **A counter that drifts.** After a reload one address of the group is stored and two are
counted. -/
theorem counter_drift : Reached (fun _ => True) drifted ∧ drifted.count replacement = 2 ∧
    drifted.inGroup replacement = 1 := by
  refine ⟨?_, ?_, ?_⟩
  · have stored : Reached (fun _ => True) pair :=
      @Reached.step _ _ (.add second) (@Reached.step _ _ (.add first) .new trivial trivial)
        trivial trivial
    exact @Reached.step _ _ (.reload [{ addr := first }, { addr := second }]) stored pair_entries
      trivial
  · decide
  · decide

end AddrBook

end Obscura.P2p
