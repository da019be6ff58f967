import Obscura.BlockIndex
import Obscura.Forge

/-! # The orphan pool

Blocks whose parent is unknown wait in four structures: the lists by parent, the recorded parent
and size by identifier, the queue in order of arrival and the bytes taken. Whatever sequence of
blocks a node receives, the four agree after every block.
-/

namespace Obscura

open Wire

variable {V : Primitives}

/-! ## What leaves the pool alone -/

/-- The four structures are the same. -/
structure KeepsPool (c c' : Chain) : Prop where
  orphans : c'.orphans = c.orphans
  orphanMeta : c'.orphanMeta = c.orphanMeta
  orphanFIFO : c'.orphanFIFO = c.orphanFIFO
  orphanBytes : c'.orphanBytes = c.orphanBytes

theorem KeepsPool.trans {c c' c'' : Chain} (first : KeepsPool c c') (second : KeepsPool c' c'') :
    KeepsPool c c'' :=
  ⟨second.orphans.trans first.orphans, second.orphanMeta.trans first.orphanMeta,
    second.orphanFIFO.trans first.orphanFIFO, second.orphanBytes.trans first.orphanBytes⟩

/-- The pool is the same, and the tree has the same vertices. -/
structure SamePool (c c' : Chain) : Prop where
  pool : KeepsPool c c'
  nodes : ∀ id, c'.nodes.contains id = c.nodes.contains id

namespace SamePool

variable {c c' c'' : Chain}

theorem refl (c : Chain) : SamePool c c := ⟨⟨rfl, rfl, rfl, rfl⟩, fun _ => rfl⟩

theorem trans (first : SamePool c c') (second : SamePool c' c'') : SamePool c c'' :=
  ⟨first.pool.trans second.pool, fun id => (second.nodes id).trans (first.nodes id)⟩

theorem of_tree (same : SameTree c c') : SamePool c c' :=
  ⟨⟨same.orphans, same.orphanMeta, same.orphanFIFO, same.orphanBytes⟩,
    fun id => by rw [same.nodes]⟩

theorem pruneNodeBodiesLocked (c : Chain) : SamePool c (c.pruneNodeBodiesLocked V) := by
  unfold Chain.pruneNodeBodiesLocked
  split_ifs
  · exact refl c
  · exact ⟨⟨rfl, rfl, rfl, rfl⟩, fun id => Std.ExtTreeMap.contains_map⟩

theorem saveSnapshotLocked (c : Chain) : SamePool c c.saveSnapshotLocked := by
  unfold Chain.saveSnapshotLocked
  dsimp only
  split_ifs
  · exact ⟨⟨rfl, rfl, rfl, rfl⟩, fun _ => rfl⟩
  · exact ⟨⟨rfl, rfl, rfl, rfl⟩, fun _ => rfl⟩

end SamePool

/-- The pool is the same, and the tree has one vertex more. -/
structure Enters (c : Chain) (id : Hash) (c' : Chain) : Prop where
  pool : KeepsPool c c'
  nodes : ∀ other, c'.nodes.contains other = (c.nodes.contains other || other == id)

namespace Enters

variable {c c' c'' : Chain} {id : Hash}

/-- A new node of the tree. -/
theorem insert (c : Chain) (node : ChainNode) (best : Hash) :
    Enters c node.hash { c with nodes := c.nodes.insert node.hash node, bestHash := best } := by
  refine ⟨⟨rfl, rfl, rfl, rfl⟩, fun other => ?_⟩
  dsimp only
  rw [Std.ExtTreeMap.contains_insert, Bool.or_comm]
  refine congrArg (c.nodes.contains other || ·) ?_
  rw [Bool.eq_iff_iff, beq_iff_eq, Std.LawfulEqCmp.compare_eq_iff_eq, beq_iff_eq]
  exact eq_comm

theorem then_same (enters : Enters c id c') (same : SamePool c' c'') : Enters c id c'' :=
  ⟨enters.pool.trans same.pool, fun other => (same.nodes other).trans (enters.nodes other)⟩

theorem after_same (same : SamePool c c') (enters : Enters c' id c'') : Enters c id c'' :=
  ⟨same.pool.trans enters.pool, fun other => (enters.nodes other).trans (by rw [same.nodes])⟩

theorem settleTip (c : Chain) (node : ChainNode) : Enters c node.hash (c.settleTip V node) := by
  have pruned := (insert c node node.hash).then_same (SamePool.pruneNodeBodiesLocked (V := V) _)
  unfold Chain.settleTip
  dsimp only
  split_ifs
  · exact pruned.then_same (SamePool.saveSnapshotLocked _)
  · exact pruned

end Enters

/-- A block that is not buffered enters the tree, or changes neither tree nor pool. -/
def Settles (c : Chain) (id : Hash) (outcome : Outcome) (c' : Chain) : Prop :=
  if outcome.isStored then Enters c id c' else SamePool c c'

section Receive

variable (parallel : Bool) (now : Int)

/-- A block on the tip settles. -/
theorem extendTip_settles (c : Chain) (b : Block) (node : ChainNode) :
    Settles c node.hash (c.extendTip V parallel now b node).1
      (c.extendTip V parallel now b node).2 := by
  have validated := SamePool.of_tree (@SameTree.validateBlockLocked V parallel now c b)
  unfold Chain.extendTip
  split
  · rename_i error c' outcome
    rwa [outcome] at validated
  rename_i c' outcome
  rw [outcome] at validated
  have applied := SamePool.of_tree (@SameTree.applyBlock V c' true b)
  split
  · rename_i error c'' outcome'
    rw [outcome'] at applied
    exact validated.trans applied
  · rename_i c'' outcome'
    rw [outcome'] at applied
    exact Enters.after_same (validated.trans applied) (.settleTip c'' node)

/-- A switch to another branch settles. -/
theorem switchTo_settles (c : Chain) (node : ChainNode) (forkHeight : Nat) :
    Settles c node.hash (c.switchTo V parallel now node forkHeight).1
      (c.switchTo V parallel now node forkHeight).2 := by
  have switched := SamePool.of_tree
    (@SameTree.reorgToLocked V parallel now c (c.branchToLocked V (some node)) forkHeight)
  unfold Chain.switchTo
  split
  · rename_i error c' outcome
    rwa [outcome] at switched
  · rename_i c' outcome
    rw [outcome] at switched
    have same := switched.trans (.of_tree (SameTree.persistActiveChainLocked c'))
    exact Enters.after_same same (.settleTip _ node)

theorem considerReorg_settles (c : Chain) (node best : ChainNode) (difficulty : Nat) :
    Settles c node.hash (c.considerReorg V parallel now node best difficulty).1
      (c.considerReorg V parallel now node best difficulty).2 := by
  unfold Chain.considerReorg
  dsimp only
  split_ifs
  · exact SamePool.refl c
  · exact switchTo_settles parallel now c node _
  · exact Enters.insert c node c.bestHash
  · exact switchTo_settles parallel now c node _

theorem addOne_cases (c : Chain) (b : Block) :
    (c.nodes.contains b.header.prevHash = false ∧
      c.addOne V parallel now b = (.orphan, c.bufferOrphanLocked V b)) ∨
    Settles c (b.header.id V) (c.addOne V parallel now b).1 (c.addOne V parallel now b).2 := by
  unfold Chain.addOne
  dsimp only
  by_cases known : c.nodes.contains (b.header.id V) = true
  · rw [if_pos known]
    exact Or.inr (SamePool.refl c)
  rw [if_neg known]
  cases c.checkArrival V now b.header with
  | error error => exact Or.inr (SamePool.refl c)
  | ok result =>
    cases found : c.nodes[b.header.prevHash]? with
    | none =>
      refine Or.inl ⟨?_, rfl⟩
      rw [Std.ExtTreeMap.contains_eq_isSome_getElem?, found]
      rfl
    | some parent =>
      refine Or.inr ?_
      dsimp only
      by_cases height : b.header.height ≠ parent.height + 1
      · rw [if_pos height]
        exact SamePool.refl c
      rw [if_neg height]
      cases c.nodes[c.bestHash]? with
      | none => exact SamePool.refl c
      | some best =>
        dsimp only
        split_ifs
        · exact Enters.insert c ⟨b.header.id V, b.header.prevHash, b.header.height,
            parent.work + b.header.difficulty, some b⟩ c.bestHash
        · exact extendTip_settles parallel now c b _
        · exact considerReorg_settles parallel now c _ best _

end Receive

/-! ## The accounts of the pool -/

/-- The blocks that wait for a parent. -/
def waiting (orphans : GoMap (List Block)) (parent : Hash) : List Block :=
  orphans[parent]?.getD []

/-- The four structures agree. The blocks of `held` have left the lists and not yet the accounts:
they are about to be added. -/
structure Pool (V : Primitives) (orphans : GoMap (List Block)) (entries : GoMap OrphanMeta)
    (queue : List Hash) (bytes : Int) (held : List Block) : Prop where
  filled : ∀ parent : Hash, orphans[parent]? ≠ some []
  recorded : ∀ (parent : Hash) (b : Block), b ∈ waiting orphans parent →
    b.header.prevHash = parent ∧ entries[b.header.id V]? = some ⟨parent, b.serialize.length⟩
  once : ∀ parent : Hash, ((waiting orphans parent).map fun b => b.header.id V).Nodup
  buffered : ∀ (id : Hash) (entry : OrphanMeta), entries[id]? = some entry →
    (∃ b ∈ waiting orphans entry.parent, b.header.id V = id) ∨ ∃ b ∈ held, b.header.id V = id
  heldRecorded : ∀ b ∈ held,
    entries[b.header.id V]? = some ⟨b.header.prevHash, b.serialize.length⟩
  heldOnce : (held.map fun b => b.header.id V).Nodup
  apart : ∀ b ∈ held, ∀ (parent : Hash), ∀ b' ∈ waiting orphans parent,
    b'.header.id V ≠ b.header.id V
  queued : ∀ (id : Hash) (entry : OrphanMeta), entries[id]? = some entry → id ∈ queue
  accounted : bytes = (OrdMap.total OrphanMeta.bytes entries : Nat)
  count : entries.size ≤ Config.maxOrphans
  budget : bytes ≤ Config.maxOrphanBytes

theorem eraseP_eq_filter {α β : Type} [DecidableEq β] (key : α → β) (k : β) (list : List α)
    (distinct : (list.map key).Nodup) :
    list.eraseP (fun a => key a = k) = list.filter fun a => key a ≠ k := by
  induction list with
  | nil => rfl
  | cons a list ih =>
    rw [List.map_cons, List.nodup_cons] at distinct
    by_cases own : key a = k
    · rw [List.eraseP_cons_of_pos (by simpa using own),
        List.filter_cons_of_neg (by simpa using own)]
      refine (List.filter_eq_self.mpr fun other member => ?_).symm
      refine decide_eq_true fun same => distinct.1 ?_
      exact List.mem_map.mpr ⟨other, member, same.trans own.symm⟩
    · rw [List.eraseP_cons_of_neg (by simpa using own),
        List.filter_cons_of_pos (by simpa using own), ih distinct.2]

theorem mem_dropWhile {α : Type} {p : α → Bool} {x : α} {list : List α} (member : x ∈ list)
    (kept : p x = false) : x ∈ list.dropWhile p := by
  induction list with
  | nil => exact absurd member List.not_mem_nil
  | cons a list ih =>
    rw [List.dropWhile_cons]
    split_ifs with drop
    · rcases List.mem_cons.mp member with rfl | member
      · rw [kept] at drop
        exact nomatch drop
      · exact ih member
    · exact member

namespace Pool

variable {orphans : GoMap (List Block)} {entries : GoMap OrphanMeta} {queue : List Hash}
  {bytes : Int} {held : List Block}

theorem empty : Pool V ∅ ∅ [] 0 [] := by
  refine ⟨by simp, by simp [waiting], by simp [waiting], by simp, by simp, by simp, by simp,
    by simp, by simp, by simp, by simp [Config.maxOrphanBytes]⟩

theorem waiting_dropped (orphans : GoMap (List Block)) (parent parent' : Hash)
    (siblings : List Block) :
    waiting (if siblings = [] then orphans.erase parent else orphans.insert parent siblings)
        parent' = if parent = parent' then siblings else waiting orphans parent' := by
  unfold waiting
  split_ifs with none same same
  · rw [OrdMap.lookup_erase, if_pos same, none]
    rfl
  · rw [OrdMap.lookup_erase, if_neg same]
  · rw [OrdMap.lookup_insert, if_pos same]
    rfl
  · rw [OrdMap.lookup_insert, if_neg same]

/-- Dropping the oldest block that still waits. -/
theorem evict (pool : Pool V orphans entries queue bytes []) {id : Hash} {entry : OrphanMeta}
    (found : entries[id]? = some entry) {rest : List Hash}
    (oldest : queue.dropWhile (fun h => !entries.contains h) = id :: rest) :
    let siblings := (waiting orphans entry.parent).eraseP fun b => b.header.id V = id
    Pool V (if siblings = [] then orphans.erase entry.parent
        else orphans.insert entry.parent siblings)
      (entries.erase id) rest (bytes - entry.bytes) [] := by
  intro siblings
  have kept : siblings = (waiting orphans entry.parent).filter fun b => b.header.id V ≠ id :=
    eraseP_eq_filter _ id _ (pool.once entry.parent)
  have after : ∀ parent b, b ∈ waiting (if siblings = [] then orphans.erase entry.parent
      else orphans.insert entry.parent siblings) parent ↔
        b ∈ waiting orphans parent ∧ b.header.id V ≠ id := by
    intro parent b
    rw [waiting_dropped]
    split_ifs with same
    · rw [kept, List.mem_filter, decide_eq_true_eq, same]
    · refine ⟨fun member => ⟨member, fun own => same ?_⟩, fun member => member.1⟩
      have own' := (pool.recorded parent b member).2
      rw [own, found] at own'
      rw [Option.some.inj own']
  have total := OrdMap.total_erase OrphanMeta.bytes entries found
  have accounted := pool.accounted
  refine ⟨fun parent => ?_, fun parent b member => ?_, fun parent => ?_,
    fun id' entry' found' => ?_, nofun, List.nodup_nil, nofun,
    fun id' entry' found' => ?_, ?_, ?_, ?_⟩
  · split_ifs with none
    · rw [OrdMap.lookup_erase]
      split_ifs
      · exact nofun
      · exact pool.filled parent
    · rw [OrdMap.lookup_insert]
      split_ifs
      · exact fun same => none (Option.some.inj same)
      · exact pool.filled parent
  · obtain ⟨member, different⟩ := (after parent b).mp member
    obtain ⟨own, listed⟩ := pool.recorded parent b member
    rw [OrdMap.lookup_erase, if_neg (Ne.symm different)]
    exact ⟨own, listed⟩
  · rw [waiting_dropped]
    split_ifs
    · rw [kept]
      exact (pool.once entry.parent).sublist (List.filter_sublist.map _)
    · exact pool.once parent
  · rw [OrdMap.lookup_erase] at found'
    split_ifs at found' with different
    rcases pool.buffered id' entry' found' with ⟨b, member, own⟩ | ⟨b, member, -⟩
    · exact Or.inl ⟨b, (after _ b).mpr ⟨member, fun same => different (same.symm.trans own)⟩, own⟩
    · exact absurd member List.not_mem_nil
  · rw [OrdMap.lookup_erase] at found'
    split_ifs at found' with different
    have live : (!entries.contains id') = false := by
      rw [Std.ExtTreeMap.contains_eq_isSome_getElem?, found']
      rfl
    have later := @mem_dropWhile _ (fun h => !entries.contains h) _ _
      (pool.queued id' entry' found') live
    rw [oldest] at later
    exact (List.mem_cons.mp later).resolve_left fun same => different same.symm
  · omega
  · exact (Std.ExtTreeMap.size_erase_le).trans pool.count
  · have bound := pool.budget
    omega

/-- A new block joins the pool. -/
theorem join (pool : Pool V orphans entries queue bytes []) {b : Block}
    (new : entries[b.header.id V]? = none) (few : entries.size < Config.maxOrphans)
    (fits : bytes + b.serialize.length ≤ Config.maxOrphanBytes) :
    let entries' := entries.insert (b.header.id V) ⟨b.header.prevHash, b.serialize.length⟩
    let queue' := queue ++ [b.header.id V]
    Pool V (orphans.insert b.header.prevHash (waiting orphans b.header.prevHash ++ [b])) entries'
      (if 2 * Config.maxOrphans < queue'.length then
        queue'.filter fun h => entries'.contains h else queue')
      (bytes + b.serialize.length) [] := by
  intro entries' queue'
  have absent : ∀ (parent : Hash), ∀ b' ∈ waiting orphans parent,
      b'.header.id V ≠ b.header.id V := by
    intro parent b' member same
    have listed := (pool.recorded parent b' member).2
    rw [same, new] at listed
    exact nomatch listed
  have after : ∀ parent, waiting (orphans.insert b.header.prevHash
      (waiting orphans b.header.prevHash ++ [b])) parent =
        if b.header.prevHash = parent then waiting orphans parent ++ [b]
        else waiting orphans parent := by
    intro parent
    rw [waiting, OrdMap.lookup_insert]
    split_ifs with same
    · rw [same]
      rfl
    · rfl
  have total := OrdMap.total_insert OrphanMeta.bytes entries
    ⟨b.header.prevHash, b.serialize.length⟩ new
  have accounted := pool.accounted
  refine ⟨fun parent => ?_, fun parent b' member => ?_, fun parent => ?_,
    fun id entry found => ?_, nofun, List.nodup_nil, nofun, fun id entry found => ?_, ?_, ?_, fits⟩
  · rw [OrdMap.lookup_insert]
    split_ifs
    · exact fun none => List.append_ne_nil_of_right_ne_nil _ (List.cons_ne_nil _ _)
        (Option.some.inj none)
    · exact pool.filled parent
  · rw [after] at member
    rw [OrdMap.lookup_insert]
    split_ifs at member with same
    · rcases List.mem_append.mp member with old | own
      · rw [if_neg (Ne.symm (absent parent b' old))]
        exact pool.recorded parent b' old
      · obtain rfl := List.mem_singleton.mp own
        rw [if_pos rfl, same]
        exact ⟨rfl, rfl⟩
    · rw [if_neg (Ne.symm (absent parent b' member))]
      exact pool.recorded parent b' member
  · rw [after]
    split_ifs
    · rw [List.map_append, List.nodup_append]
      refine ⟨pool.once parent, List.nodup_singleton _, fun id member id' own same => ?_⟩
      obtain ⟨b', listed, rfl⟩ := List.mem_map.mp member
      rw [List.map_singleton, List.mem_singleton] at own
      exact absent parent b' listed (same.trans own)
    · exact pool.once parent
  · refine Or.inl ?_
    rw [OrdMap.lookup_insert] at found
    split_ifs at found with own
    · obtain rfl := Option.some.inj found
      refine ⟨b, ?_, own⟩
      rw [after, if_pos rfl]
      exact List.mem_append_right _ (List.mem_singleton_self b)
    · rcases pool.buffered id entry found with ⟨b', member, same⟩ | ⟨b', member, -⟩
      · refine ⟨b', ?_, same⟩
        rw [after]
        split_ifs
        · exact List.mem_append_left _ member
        · exact member
      · exact absurd member List.not_mem_nil
  · have listed : id ∈ queue' := by
      rw [OrdMap.lookup_insert] at found
      split_ifs at found with own
      · rw [← own]
        exact List.mem_append_right _ (List.mem_singleton_self _)
      · exact List.mem_append_left _ (pool.queued id entry found)
    split_ifs
    · refine List.mem_filter.mpr ⟨listed, ?_⟩
      rw [Std.ExtTreeMap.contains_eq_isSome_getElem?, found]
      rfl
    · exact listed
  · rw [total]
    push_cast
    omega
  · exact (Std.ExtTreeMap.size_insert_le).trans (by omega)

/-- The blocks that wait for a parent leave the lists together. -/
theorem take (pool : Pool V orphans entries queue bytes held) (parent : Hash) :
    Pool V (orphans.erase parent) entries queue bytes (waiting orphans parent ++ held) := by
  have after : ∀ other, waiting (orphans.erase parent) other =
      if parent = other then [] else waiting orphans other := by
    intro other
    rw [waiting, OrdMap.lookup_erase]
    split_ifs
    · rfl
    · rfl
  have sub : ∀ other, ∀ b ∈ waiting (orphans.erase parent) other,
      parent ≠ other ∧ b ∈ waiting orphans other := by
    intro other b member
    rw [after] at member
    split_ifs at member with same
    · exact absurd member List.not_mem_nil
    · exact ⟨same, member⟩
  refine ⟨fun other => ?_, fun other b member => pool.recorded other b (sub other b member).2,
    fun other => ?_, fun id entry found => ?_, fun b member => ?_, ?_,
    fun b member other b' among => ?_, pool.queued, pool.accounted, pool.count, pool.budget⟩
  · rw [OrdMap.lookup_erase]
    split_ifs
    · exact nofun
    · exact pool.filled other
  · rw [after]
    split_ifs
    · exact List.nodup_nil
    · exact pool.once other
  · rcases pool.buffered id entry found with ⟨b, member, own⟩ | ⟨b, member, own⟩
    · by_cases same : parent = entry.parent
      · exact Or.inr ⟨b, List.mem_append_left _ (same ▸ member), own⟩
      · refine Or.inl ⟨b, ?_, own⟩
        rw [after, if_neg same]
        exact member
    · exact Or.inr ⟨b, List.mem_append_right _ member, own⟩
  · rcases List.mem_append.mp member with released | old
    · obtain ⟨own, listed⟩ := pool.recorded parent b released
      rw [listed, own]
    · exact pool.heldRecorded b old
  · rw [List.map_append, List.nodup_append]
    refine ⟨pool.once parent, pool.heldOnce, fun id member id' member' same => ?_⟩
    obtain ⟨b, released, rfl⟩ := List.mem_map.mp member
    obtain ⟨b', old, rfl⟩ := List.mem_map.mp member'
    exact pool.apart b' old parent b released same
  · obtain ⟨different, among⟩ := sub other b' among
    rcases List.mem_append.mp member with released | old
    · intro same
      have first := (pool.recorded other b' among).2
      rw [same, (pool.recorded parent b released).2] at first
      exact different (congrArg OrphanMeta.parent (Option.some.inj first))
    · exact pool.apart b old other b' among

/-- A block that is about to be added leaves the accounts. -/
theorem release {child : Block} (pool : Pool V orphans entries queue bytes (child :: held)) :
    Pool V orphans (entries.erase (child.header.id V)) queue
      (bytes - child.serialize.length) held := by
  have listed := pool.heldRecorded child List.mem_cons_self
  have distinct := pool.heldOnce
  rw [List.map_cons, List.nodup_cons] at distinct
  have others : ∀ b ∈ held, child.header.id V ≠ b.header.id V := fun b member same =>
    distinct.1 (List.mem_map.mpr ⟨b, member, same.symm⟩)
  have total := OrdMap.total_erase OrphanMeta.bytes entries listed
  have accounted := pool.accounted
  dsimp only at total
  refine ⟨pool.filled, fun parent b member => ?_, pool.once, fun id entry found => ?_,
    fun b member => ?_, distinct.2, fun b member => pool.apart b (List.mem_cons_of_mem _ member),
    fun id entry found => ?_, by omega, (Std.ExtTreeMap.size_erase_le).trans pool.count, ?_⟩
  · have different := pool.apart child List.mem_cons_self parent b member
    rw [OrdMap.lookup_erase, if_neg (Ne.symm different)]
    exact pool.recorded parent b member
  · rw [OrdMap.lookup_erase] at found
    split_ifs at found with different
    rcases pool.buffered id entry found with waits | ⟨b, member, own⟩
    · exact Or.inl waits
    · rcases List.mem_cons.mp member with rfl | member
      · exact absurd own different
      · exact Or.inr ⟨b, member, own⟩
  · rw [OrdMap.lookup_erase, if_neg (others b member)]
    exact pool.heldRecorded b (List.mem_cons_of_mem _ member)
  · rw [OrdMap.lookup_erase] at found
    split_ifs at found
    exact pool.queued id entry found
  · have bound := pool.budget
    omega

end Pool

/-! ## The pool of a chain -/

/-- The pool of a chain, with blocks that are about to be added. -/
def Pooled (V : Primitives) (c : Chain) (held : List Block) : Prop :=
  Pool V c.orphans c.orphanMeta c.orphanFIFO c.orphanBytes held

/-- Nothing waits for a block of the tree. -/
def Waits (c : Chain) : Prop :=
  ∀ parent : Hash, waiting c.orphans parent ≠ [] → c.nodes.contains parent = false

theorem Pooled.keep {c c' : Chain} {held : List Block} (pool : Pooled V c held)
    (same : KeepsPool c c') : Pooled V c' held := by
  rw [Pooled, same.orphans, same.orphanMeta, same.orphanFIFO, same.orphanBytes]
  exact pool

theorem Waits.keep {c c' : Chain} (waits : Waits c) (same : SamePool c c') : Waits c' := by
  intro parent more
  rw [same.nodes]
  rw [same.pool.orphans] at more
  exact waits parent more

theorem KeepsPool.pooled {c c' : Chain} (same : KeepsPool c c') : c'.pooled = c.pooled := by
  rw [Chain.pooled, Chain.pooled, same.orphans]

/-- A chain that has lost blocks of its pool and nothing else. -/
structure Sheds (V : Primitives) (c c' : Chain) : Prop where
  pool : Pooled V c' []
  absent : ∀ id : Hash, c.orphanMeta[id]? = none → c'.orphanMeta[id]? = none
  nodes : c'.nodes = c.nodes
  waits : ∀ parent : Hash, waiting c'.orphans parent ≠ [] → waiting c.orphans parent ≠ []

variable {c : Chain}

/-- An eviction sheds an orphan. -/
theorem evictOldest_sheds (pool : Pooled V c []) {c' : Chain}
    (evicted : c.evictOldestOrphanLocked V = some c') :
    Sheds V c c' ∧ c'.orphanFIFO.length < c.orphanFIFO.length := by
  unfold Chain.evictOldestOrphanLocked at evicted
  split at evicted
  · exact nomatch evicted
  · rename_i id queue oldest
    obtain ⟨entry, found, rfl⟩ := Option.map_eq_some_iff.mp evicted
    refine ⟨⟨pool.evict found oldest, fun id' absent => ?_, rfl,
      fun parent more none => more ?_⟩, ?_⟩
    · simp only [Chain.removeOrphanLocked]
      rw [OrdMap.lookup_erase]
      split_ifs
      · rfl
      · exact absent
    · simp only [Chain.removeOrphanLocked]
      rw [Pool.waiting_dropped]
      split_ifs with same
      · rw [← same] at none
        rw [waiting] at none
        rw [none]
        rfl
      · exact none
    · have shorter : (c.orphanFIFO.dropWhile fun id => !c.orphanMeta.contains id).length ≤
          c.orphanFIFO.length := (List.dropWhile_sublist _).length_le
      rw [oldest, List.length_cons] at shorter
      exact shorter

theorem drained_fits (pool : Pooled V c []) (drained : c.evictOldestOrphanLocked V = none)
    {size : Nat} (small : size ≤ Config.maxOrphanBytes) :
    c.orphanMeta.size < Config.maxOrphans ∧ c.orphanBytes + size ≤ Config.maxOrphanBytes := by
  have none : c.orphanMeta = ∅ := by
    refine Std.ExtTreeMap.ext_getElem? fun {id} => ?_
    rw [Std.ExtTreeMap.getElem?_empty]
    by_contra some
    obtain ⟨entry, found⟩ := Option.ne_none_iff_exists'.mp some
    unfold Chain.evictOldestOrphanLocked at drained
    have live : (!c.orphanMeta.contains id) = false := by
      rw [Std.ExtTreeMap.contains_eq_isSome_getElem?, found]
      rfl
    have later := @mem_dropWhile _ (fun h => !c.orphanMeta.contains h) _ _
      (pool.queued id entry found) live
    split at drained
    · rename_i empty
      rw [empty] at later
      exact List.not_mem_nil later
    · rename_i oldest rest split
      have head := List.head?_dropWhile_not (fun h => !c.orphanMeta.contains h) c.orphanFIFO
      rw [split] at head
      have gone := Option.map_eq_none_iff.mp drained
      simp [Std.ExtTreeMap.contains_eq_isSome_getElem?, gone] at head
  have accounted := pool.accounted
  rw [none, OrdMap.total_empty] at accounted
  rw [none, accounted]
  refine ⟨by simp [Config.maxOrphans], ?_⟩
  push_cast
  omega

/-- Evicting makes room for any body within the budget. -/
theorem evictFor_sheds {size : Nat} (small : size ≤ Config.maxOrphanBytes) (fuel : Nat)
    (pool : Pooled V c []) (enough : c.orphanFIFO.length ≤ fuel) :
    ∃ c', Chain.evictFor V size fuel c = (c', true) ∧ Sheds V c c' ∧
      c'.orphanMeta.size < Config.maxOrphans ∧
      c'.orphanBytes + size ≤ Config.maxOrphanBytes := by
  induction fuel generalizing c with
  | zero =>
    unfold Chain.evictFor
    have queueless : c.orphanFIFO = [] := List.eq_nil_of_length_eq_zero (Nat.le_zero.mp enough)
    have fits := drained_fits pool (by
      unfold Chain.evictOldestOrphanLocked
      rw [queueless]
      rfl) small
    rw [if_pos fits]
    exact ⟨c, rfl, ⟨pool, fun _ none => none, rfl, fun _ more => more⟩, fits⟩
  | succ fuel ih =>
    unfold Chain.evictFor
    by_cases fits : c.orphanMeta.size < Config.maxOrphans ∧
        c.orphanBytes + size ≤ Config.maxOrphanBytes
    · rw [if_pos fits]
      exact ⟨c, rfl, ⟨pool, fun _ none => none, rfl, fun _ more => more⟩, fits⟩
    rw [if_neg fits]
    cases evicted : c.evictOldestOrphanLocked V with
    | none => exact absurd (drained_fits pool evicted small) fits
    | some c' =>
      obtain ⟨shed, shorter⟩ := evictOldest_sheds pool evicted
      obtain ⟨c'', ran, more, room⟩ := ih shed.pool (by omega)
      exact ⟨c'', ran, ⟨more.pool, fun id none => more.absent id (shed.absent id none),
        more.nodes.trans shed.nodes,
        fun parent waits => shed.waits parent (more.waits parent waits)⟩, room⟩

theorem bufferOrphanLocked_pool (pool : Pooled V c []) (waits : Waits c) {b : Block}
    (parentless : c.nodes.contains b.header.prevHash = false) :
    Pooled V (c.bufferOrphanLocked V b) [] ∧ Waits (c.bufferOrphanLocked V b) := by
  unfold Chain.bufferOrphanLocked
  dsimp only
  by_cases refused : c.orphanMeta.contains (b.header.id V) = true ∨
      Config.maxOrphanBytes < b.serialize.length
  · rw [if_pos refused]
    exact ⟨pool, waits⟩
  rw [if_neg refused]
  obtain ⟨absent, small⟩ := not_or.mp refused
  obtain ⟨c', ran, shed, few, fits⟩ := evictFor_sheds (not_lt.mp small) c.orphanFIFO.length pool
    le_rfl
  rw [ran]
  have new : c'.orphanMeta[b.header.id V]? = none := by
    refine shed.absent _ ?_
    rw [Std.ExtTreeMap.contains_eq_isSome_getElem?, Bool.not_eq_true,
      Option.isSome_eq_false_iff, Option.isNone_iff_eq_none] at absent
    exact absent
  refine ⟨shed.pool.join new few fits, fun parent more => ?_⟩
  dsimp only at more ⊢
  rw [shed.nodes]
  rw [waiting, OrdMap.lookup_insert] at more
  split_ifs at more with same
  · rw [← same]
    exact parentless
  · exact waits parent (shed.waits parent more)

theorem pooled_take (c : Chain) (parent : Hash) :
    (waiting c.orphans parent).length + (c.takeOrphans parent).2.pooled = c.pooled := by
  unfold Chain.takeOrphans Chain.pooled waiting
  cases found : c.orphans[parent]? with
  | some children =>
    have total := OrdMap.total_erase List.length c.orphans found
    dsimp only [Option.getD_some]
    omega
  | none =>
    have same : c.orphans.erase parent = c.orphans := by
      refine Std.ExtTreeMap.ext_getElem? fun {other} => ?_
      rw [OrdMap.lookup_erase]
      split_ifs with own
      · rw [← own, found]
      · rfl
    dsimp only [Option.getD_none]
    rw [same, List.length_nil, Nat.zero_add]

section Receive

variable (parallel : Bool) (now : Int)

theorem enters_take {held : List Block} {id : Hash} {c' : Chain} (pool : Pooled V c held)
    (waits : Waits c) (enters : Enters c id c') :
    Pooled V (c'.takeOrphans id).2 (waiting c.orphans id ++ held) ∧ Waits (c'.takeOrphans id).2 ∧
      (c'.takeOrphans id).1 = waiting c.orphans id ∧
      (waiting c.orphans id).length + (c'.takeOrphans id).2.pooled = c.pooled := by
  have counted := pooled_take c' id
  rw [enters.pool.pooled, enters.pool.orphans] at counted
  refine ⟨?_, fun parent more => ?_, ?_, counted⟩
  · have same : waiting c'.orphans id = waiting c.orphans id := by rw [enters.pool.orphans]
    rw [← same]
    exact (pool.keep enters.pool).take id
  · simp only [Chain.takeOrphans] at more ⊢
    rw [waiting, OrdMap.lookup_erase, enters.pool.orphans] at more
    split_ifs at more with own
    · exact absurd rfl more
    · rw [enters.nodes, waits parent more, Bool.false_or, beq_eq_false_iff_ne]
      exact Ne.symm own
  · rw [Chain.takeOrphans, enters.pool.orphans]
    rfl

/-- Every block that is released is added once, and the blocks it releases in turn. -/
theorem connectOrphansLocked_pool (fuel : Nat) (held : List Block) (pool : Pooled V c held)
    (waits : Waits c) (known : ∀ b ∈ held, c.nodes.contains b.header.prevHash = true)
    (enough : held.length + c.pooled ≤ fuel) :
    Pooled V (c.connectOrphansLocked V parallel now fuel held).2 [] ∧
      Waits (c.connectOrphansLocked V parallel now fuel held).2 ∧
      (c.connectOrphansLocked V parallel now fuel held).1.length +
        (c.connectOrphansLocked V parallel now fuel held).2.pooled = held.length + c.pooled := by
  induction fuel generalizing c held with
  | zero =>
    obtain rfl := List.eq_nil_of_length_eq_zero (show held.length = 0 by omega)
    simp only [Chain.connectOrphansLocked]
    exact ⟨pool, waits, rfl⟩
  | succ fuel ih =>
    cases held with
    | nil =>
      simp only [Chain.connectOrphansLocked]
      exact ⟨pool, waits, rfl⟩
    | cons child rest =>
      have listed := pool.heldRecorded child List.mem_cons_self
      have released : c.releaseOrphan V child =
          { c with
            orphanMeta := c.orphanMeta.erase (child.header.id V)
            orphanBytes := c.orphanBytes - child.serialize.length } := by
        rw [Chain.releaseOrphan, listed]
      have pool' : Pooled V (c.releaseOrphan V child) rest := by
        rw [released]
        exact pool.release
      have waits' : Waits (c.releaseOrphan V child) := by
        rw [released]
        exact waits
      have nodes : (c.releaseOrphan V child).nodes = c.nodes := by rw [released]
      have count : (c.releaseOrphan V child).pooled = c.pooled := by rw [released]; rfl
      have parent : (c.releaseOrphan V child).nodes.contains child.header.prevHash = true := by
        rw [nodes]
        exact known child List.mem_cons_self
      have others : ∀ b ∈ rest,
          (c.releaseOrphan V child).nodes.contains b.header.prevHash = true := by
        intro b member
        rw [nodes]
        exact known b (List.mem_cons_of_mem _ member)
      have settles :=
        (@addOne_cases V parallel now (c.releaseOrphan V child) child).resolve_left
          fun orphan => Bool.false_ne_true (orphan.1.symm.trans parent)
      rw [List.length_cons] at enough ⊢
      rw [← count] at enough ⊢
      rw [Chain.connectOrphansLocked]
      generalize c.releaseOrphan V child = c₁ at *
      generalize c₁.addOne V parallel now child = answer at settles ⊢
      obtain ⟨outcome, c₂⟩ := answer
      dsimp only at settles ⊢
      unfold Settles at settles
      split_ifs at settles with stored
      · rw [if_pos stored]
        obtain ⟨taken, waits'', children, counted⟩ := enters_take pool' waits' settles
        have parents : ∀ b ∈ waiting c₁.orphans (child.header.id V) ++ rest,
            (c₂.takeOrphans (child.header.id V)).2.nodes.contains b.header.prevHash = true := by
          intro b member
          rw [Chain.takeOrphans]
          dsimp only
          rw [settles.nodes]
          rcases List.mem_append.mp member with own | old
          · rw [(pool'.recorded _ b own).1, beq_self_eq_true, Bool.or_true]
          · rw [others b old, Bool.true_or]
        obtain ⟨done, quiet, counts⟩ := ih (waiting c₁.orphans (child.header.id V) ++ rest)
          taken waits'' parents (by rw [List.length_append]; omega)
        rw [children]
        rw [List.length_append] at counts
        refine ⟨done, quiet, ?_⟩
        rw [List.length_cons]
        omega
      · rw [if_neg stored]
        have count' := settles.pool.pooled
        have others' : ∀ b ∈ rest, c₂.nodes.contains b.header.prevHash = true := by
          intro b member
          rw [settles.nodes]
          exact others b member
        obtain ⟨done, quiet, counts⟩ := ih rest (pool'.keep settles.pool)
          (waits'.keep settles) others' (by omega)
        rw [List.nil_append]
        refine ⟨done, quiet, ?_⟩
        dsimp only
        rw [List.length_cons]
        omega

/-- One block received: the pool agrees with itself afterwards, nothing waits for a block of the
tree, and a block that is stored releases exactly the blocks that leave the pool. -/
theorem addBlockLocked_pool (pool : Pooled V c []) (waits : Waits c) (b : Block) :
    Pooled V (c.addBlockLocked V parallel now b).2 [] ∧
      Waits (c.addBlockLocked V parallel now b).2 ∧
      ((c.addOne V parallel now b).1.isStored = true →
        (c.addBlockLocked V parallel now b).1.length +
          (c.addBlockLocked V parallel now b).2.pooled = 1 + c.pooled) := by
  rw [Chain.addBlockLocked]
  rcases @addOne_cases V parallel now c b with ⟨parentless, buffered⟩ | settles
  · rw [buffered]
    obtain ⟨pool', waits'⟩ := bufferOrphanLocked_pool pool waits parentless
    exact ⟨pool', waits', nofun⟩
  generalize c.addOne V parallel now b = answer at settles ⊢
  obtain ⟨outcome, c'⟩ := answer
  dsimp only at settles ⊢
  unfold Settles at settles
  split_ifs at settles with stored
  · rw [if_pos stored]
    obtain ⟨taken, waits', children, counted⟩ := enters_take pool waits settles
    have same := settles.pool.pooled
    rw [List.append_nil] at taken
    have parents : ∀ child ∈ waiting c.orphans (b.header.id V),
        (c'.takeOrphans (b.header.id V)).2.nodes.contains child.header.prevHash = true := by
      intro child member
      rw [Chain.takeOrphans]
      dsimp only
      rw [settles.nodes, (pool.recorded _ child member).1, beq_self_eq_true, Bool.or_true]
    obtain ⟨done, quiet, counts⟩ := connectOrphansLocked_pool parallel now c'.pooled
      (waiting c.orphans (b.header.id V)) taken waits' parents (by omega)
    rw [children]
    refine ⟨done, quiet, fun _ => ?_⟩
    dsimp only
    rw [List.length_cons]
    omega
  · rw [if_neg stored]
    exact ⟨pool.keep settles.pool, waits.keep settles, fun yes => absurd yes stored⟩

end Receive

/-! ## Sequences of blocks -/

/-- The blocks a node receives, each with the clock and the way its proofs are checked. -/
def addBlocks (V : Primitives) (c : Chain) : List (Bool × Int × Block) → Chain
  | [] => c
  | (parallel, now, b) :: arrivals => addBlocks V (c.addBlockLocked V parallel now b).2 arrivals

theorem addBlocks_pool (pool : Pooled V c []) (waits : Waits c)
    (arrivals : List (Bool × Int × Block)) :
    Pooled V (addBlocks V c arrivals) [] ∧ Waits (addBlocks V c arrivals) := by
  induction arrivals generalizing c with
  | nil => exact ⟨pool, waits⟩
  | cons arrival arrivals ih =>
    obtain ⟨parallel, now, b⟩ := arrival
    obtain ⟨pool', waits', -⟩ := addBlockLocked_pool parallel now pool waits b
    exact ih pool' waits'

/-- Nothing waits, as after opening a data directory. -/
structure Poolless (c : Chain) : Prop where
  orphans : c.orphans = ∅
  orphanMeta : c.orphanMeta = ∅
  orphanFIFO : c.orphanFIFO = []
  orphanBytes : c.orphanBytes = 0

theorem Poolless.pool (fresh : Poolless c) : Pooled V c [] ∧ Waits c := by
  refine ⟨?_, fun parent more => absurd ?_ more⟩
  · rw [Pooled, fresh.orphans, fresh.orphanMeta, fresh.orphanFIFO, fresh.orphanBytes]
    exact Pool.empty
  · rw [waiting, fresh.orphans, Std.ExtTreeMap.getElem?_empty]
    rfl

/-- After every sequence of blocks the bytes are the sum of the recorded sizes, the waiting blocks
and the records are in bijection under the recorded parent, every waiting block is in the queue, and
both bounds hold. A block that enters the tree releases its descendants among the waiting blocks:
what it hands on and what stays add up to what was there, and nothing that waits has its parent in
the tree. -/
theorem orphan_accounts (V : Primitives) (c : Chain) (fresh : Poolless c)
    (arrivals : List (Bool × Int × Block)) :
    let c' := addBlocks V c arrivals
    c'.orphanBytes = (OrdMap.total OrphanMeta.bytes c'.orphanMeta : Nat) ∧
    (∀ (id parent : Hash) (size : Nat), c'.orphanMeta[id]? = some ⟨parent, size⟩ ↔
      ∃ b ∈ waiting c'.orphans parent, b.header.id V = id ∧ b.header.prevHash = parent ∧
        b.serialize.length = size) ∧
    (∀ parent : Hash, ((waiting c'.orphans parent).map fun b => b.header.id V).Nodup ∧
      c'.orphans[parent]? ≠ some []) ∧
    (∀ id : Hash, c'.orphanMeta.contains id = true → id ∈ c'.orphanFIFO) ∧
    c'.orphanMeta.size ≤ Config.maxOrphans ∧ c'.orphanBytes ≤ Config.maxOrphanBytes ∧
    (∀ parent : Hash, waiting c'.orphans parent ≠ [] → c'.nodes.contains parent = false) ∧
    ∀ (before after : List (Bool × Int × Block)) (parallel : Bool) (now : Int) (b : Block),
      arrivals = before ++ (parallel, now, b) :: after →
        ((addBlocks V c before).addOne V parallel now b).1.isStored = true →
          ((addBlocks V c before).addBlockLocked V parallel now b).1.length +
              ((addBlocks V c before).addBlockLocked V parallel now b).2.pooled =
            1 + (addBlocks V c before).pooled := by
  intro c'
  obtain ⟨start, quiet⟩ := @Poolless.pool V c fresh
  obtain ⟨pool, waits⟩ := addBlocks_pool start quiet arrivals
  refine ⟨pool.accounted, fun id parent size => ⟨fun found => ?_, ?_⟩,
    fun parent => ⟨pool.once parent, pool.filled parent⟩, fun id listed => ?_, pool.count,
    pool.budget, waits, fun before after parallel now b split stored => ?_⟩
  · rcases pool.buffered id ⟨parent, size⟩ found with ⟨b, member, own⟩ | ⟨b, member, -⟩
    · obtain ⟨prev, listed⟩ := pool.recorded parent b member
      rw [own, found] at listed
      exact ⟨b, member, own, prev, (congrArg OrphanMeta.bytes (Option.some.inj listed)).symm⟩
    · exact absurd member List.not_mem_nil
  · rintro ⟨b, member, rfl, -, rfl⟩
    exact (pool.recorded parent b member).2
  · rw [Std.ExtTreeMap.contains_eq_isSome_getElem?, Option.isSome_iff_exists] at listed
    obtain ⟨entry, found⟩ := listed
    exact pool.queued id entry found
  · obtain ⟨pool', waits'⟩ := addBlocks_pool start quiet before
    exact (addBlockLocked_pool parallel now pool' waits' b).2.2 stored

section Sample

open Testnet

/-- A node that has just been opened on the test network. -/
def opened : Chain :=
  { ledger := genesisLedger (primitives Forge.digest) : Chain }.indexActiveChain (primitives Forge.digest)

theorem opened_poolless : Poolless opened := ⟨rfl, rfl, rfl, rfl⟩

/-- The empty block of the test network at a height, as it is received. -/
def arrival (height : Nat) : Bool × Int × Block :=
  (false, genesisTimestamp + 10, mine Forge.digest 0 (mined Forge.digest (List.replicate (height - 1) 0)))

/-- The second and the third block wait for the first one, which releases them. -/
theorem orphan_accounts_sample :
    let two := addBlocks (primitives Forge.digest) opened [arrival 3, arrival 2]
    two.pooled = 2 ∧ two.orphanBytes = (OrdMap.total OrphanMeta.bytes two.orphanMeta : Nat) ∧
      (two.addBlockLocked (primitives Forge.digest) false (genesisTimestamp + 10)
        (arrival 1).2.2).1.length = 3 := by
  intro two
  have waiting : two.pooled = 2 := by decide +kernel
  have bytes := (orphan_accounts (primitives Forge.digest) opened opened_poolless
    [arrival 3, arrival 2]).1
  obtain ⟨-, -, -, -, -, -, -, released⟩ := orphan_accounts (primitives Forge.digest) opened
    opened_poolless [arrival 3, arrival 2, arrival 1]
  have stored : (two.addOne (primitives Forge.digest) false (genesisTimestamp + 10)
      (arrival 1).2.2).1.isStored = true := by decide +kernel
  have empty : (two.addBlockLocked (primitives Forge.digest) false (genesisTimestamp + 10)
      (arrival 1).2.2).2.pooled = 0 := by decide +kernel
  have total := released [arrival 3, arrival 2] [] false (genesisTimestamp + 10) (arrival 1).2.2 rfl
    stored
  refine ⟨waiting, bytes, ?_⟩
  change (two.addBlockLocked _ _ _ _).1.length + (two.addBlockLocked _ _ _ _).2.pooled =
    1 + two.pooled at total
  omega

end Sample

end Obscura
