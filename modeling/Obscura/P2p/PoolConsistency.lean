import Obscura.BlockIndex
import Obscura.P2p.Dispatch

/-! # The pool and the active chain

As long as every block arrives at the tip, the pool and the active chain agree after
every message: an extension spends what the block spends, `Remove` drops what conflicts
with it, and admission checks against the chain as it stands. A block of a side branch,
a reorganization or an orphan that is released breaks the agreement.
-/

namespace Obscura.P2p.Relay

open Wire Tx Checked Mempool

variable {V : Primitives}

/-! ## What is spent -/

section Spent

variable {L L' : Ledger} {t : Transaction} {b : Block} {cb : Transaction}

/-- What passes validation spends nothing twice. -/
theorem unspent_of_legs {skip : Bool} {height : Nat} {seen next : Seen} {primes : List Bytes}
    (noPQ : t.pqInputs = []) (legs : LegsAccepted V L skip t height seen primes next) :
    Unspent V L t := by
  constructor
  case refs =>
    intro input member
    obtain ⟨-, entry, found, -⟩ := legs.inputs input member
    unfold Ledger.utxoEntry at found
    split_ifs at found with spent
    exact Bool.not_eq_true _ ▸ spent
  case images =>
    intro input member
    obtain ⟨-, -, -, -, -, -, nullifier, canonical, untagged⟩ := legs.inputs input member
    rw [recordedTag_of_canonical canonical]
    exact untagged
  case tags =>
    intro input member
    obtain ⟨-, -, -, nullifier, canonical, untagged⟩ := legs.anonInputs input member
    rw [recordedTag_of_canonical canonical]
    exact untagged
  case swaps =>
    intro input member
    obtain ⟨sw, found, -⟩ := legs.swapInputs input member
    rw [found]
    rfl
  case vaults =>
    intro input member
    obtain ⟨v, found⟩ := legs.vaultInputs input member
    rw [found]
    rfl
  case notes => exact fun input member => (legs.zkInputs input member).1
  case confidential => exact fun s member => (legs.czkSpends s member).1
  case pqInputs =>
    rw [noPQ]
    exact nofun

theorem unspent_of_standalone {chain : List Block} {cache : ProofCache}
    (run : CacheRun V chain cache)
    (valid : (validateStandaloneTx V (replay V chain) cache t).1 = .ok ()) :
    Unspent V (replay V chain) t ∧ t.pqInputs = [] ∧
      ∀ input ∈ t.inputs, input.keyImage.length = 32 := by
  obtain ⟨tip, ⟨primes, next⟩, -, passed⟩ := (validateStandaloneTx_ok V _).mp valid
  obtain ⟨-, -, noPQ, -, legs⟩ := validateTx_classical run.chained.regular.noPQOutput passed
  exact ⟨unspent_of_legs noPQ legs, noPQ, fun input member => (legs.inputs input member).1⟩

/-- A block behind which a transaction shares nothing with it leaves it unspent. -/
theorem Unspent.behind {skip : Transaction → Bool} {now : Int} {txs : List Transaction}
    (unspent : Unspent V L t) (noPQ : t.pqInputs = [])
    (images : ∀ input ∈ t.inputs, input.keyImage.length = 32)
    (behind : StoresBehind V L b L') (accepted : BlockAccepted V skip now L b cb txs)
    (applied : Applied V L b cb L') (apart : Apart V b t) : Unspent V L' t := by
  have untagged {tag : Bytes} (before : L.tags.has (hexstr tag) = false)
      (other : tag ∉ blockTagsFromTxs V b.txs) : L'.tags.has (hexstr tag) = false := by
    rw [← Bool.not_eq_true, behind.tags, not_or, before]
    exact ⟨Bool.false_ne_true, other⟩
  constructor
  case refs =>
    intro input member
    rw [← Bool.not_eq_true, behind.spent, not_or, unspent.refs input member]
    exact ⟨Bool.false_ne_true, apart.refs input member⟩
  case images =>
    exact fun input member =>
      untagged (unspent.images input member) (apart.images input member (images input member))
  case tags =>
    exact fun input member => untagged (unspent.tags input member) (apart.tags input member)
  case swaps =>
    intro input member
    obtain ⟨sw, found⟩ := Option.isSome_iff_exists.mp (unspent.swaps input member)
    rw [swap_behind accepted applied found (apart.swaps input member)]
    rfl
  case vaults =>
    intro input member
    obtain ⟨v, found⟩ := Option.isSome_iff_exists.mp (unspent.vaults input member)
    rw [vault_behind accepted applied found (apart.vaults input member)]
    rfl
  case notes =>
    exact fun input member =>
      note_behind applied (unspent.notes input member) (apart.notes input member)
  case confidential =>
    exact fun s member =>
      note_behind applied (unspent.confidential s member) (apart.confidential s member)
  case pqInputs =>
    rw [noPQ]
    exact nofun

end Spent

/-! ## The chain behind a block -/

section Chain

variable {c c' : Chain} {parallel : Bool} {now : Int} {b : Block}

/-- The consensus state and the proof cache are the same. -/
structure SameState (c c' : Chain) : Prop where
  ledger : c'.ledger = c.ledger
  verifiedProofs : c'.verifiedProofs = c.verifiedProofs

theorem SameState.refl (c : Chain) : SameState c c := ⟨rfl, rfl⟩

theorem SameState.trans {c'' : Chain} (first : SameState c c') (second : SameState c' c'') :
    SameState c c'' :=
  ⟨second.ledger.trans first.ledger, second.verifiedProofs.trans first.verifiedProofs⟩

theorem SameState.evictFor (size fuel : Nat) (c : Chain) :
    SameState c (c.evictFor V size fuel).1 := by
  induction fuel generalizing c with
  | zero =>
    unfold Chain.evictFor
    split_ifs
    · exact .refl c
    · exact ⟨rfl, rfl⟩
  | succ fuel ih =>
    unfold Chain.evictFor
    split_ifs
    · exact .refl c
    cases evicted : c.evictOldestOrphanLocked V with
    | none => exact ⟨rfl, rfl⟩
    | some next =>
      have same : SameState c next := by
        unfold Chain.evictOldestOrphanLocked at evicted
        split at evicted
        · cases evicted
        · obtain ⟨entry, -, rfl⟩ := Option.map_eq_some_iff.mp evicted
          exact ⟨rfl, rfl⟩
      exact same.trans (ih next)

theorem SameState.bufferOrphanLocked (c : Chain) (b : Block) :
    SameState c (c.bufferOrphanLocked V b) := by
  unfold Chain.bufferOrphanLocked
  dsimp only
  split_ifs
  · exact .refl c
  have evicted := SameState.evictFor (V := V) b.serialize.length c.orphanFIFO.length c
  split
  · next outcome =>
    rw [outcome] at evicted
    exact evicted
  · next outcome =>
    rw [outcome] at evicted
    exact evicted.trans ⟨rfl, rfl⟩

theorem SameState.cacheBlock (c : Chain) (b : Block) : SameState c (c.cacheBlock b) := by
  unfold Chain.cacheBlock
  dsimp only
  split_ifs
  · exact ⟨rfl, rfl⟩
  · split
    · exact ⟨rfl, rfl⟩
    · exact ⟨rfl, rfl⟩

theorem SameState.settleTip (c : Chain) (node : ChainNode) : SameState c (c.settleTip V node) := by
  have pruned (c : Chain) : SameState c (c.pruneNodeBodiesLocked V) := by
    unfold Chain.pruneNodeBodiesLocked
    split_ifs
    · exact ⟨rfl, rfl⟩
    · exact ⟨rfl, rfl⟩
  have saved (c : Chain) : SameState c c.saveSnapshotLocked := by
    unfold Chain.saveSnapshotLocked
    dsimp only
    split_ifs
    · exact ⟨rfl, rfl⟩
    · exact ⟨rfl, rfl⟩
  unfold Chain.settleTip
  dsimp only
  have entered : SameState c
      { c with nodes := c.nodes.insert node.hash node, bestHash := node.hash } :=
    ⟨rfl, rfl⟩
  split_ifs
  · exact (entered.trans (pruned _)).trans (saved _)
  · exact entered.trans (pruned _)

theorem settleTip_orphans (c : Chain) (node : ChainNode) :
    (c.settleTip V node).orphans = c.orphans := by
  have pruned (c : Chain) : (c.pruneNodeBodiesLocked V).orphans = c.orphans := by
    unfold Chain.pruneNodeBodiesLocked
    split_ifs
    · rfl
    · rfl
  have saved (c : Chain) : c.saveSnapshotLocked.orphans = c.orphans := by
    unfold Chain.saveSnapshotLocked
    dsimp only
    split_ifs
    · rfl
    · rfl
  unfold Chain.settleTip
  dsimp only
  split_ifs
  · rw [saved, pruned]
  · rw [pruned]

theorem applyBlock_ran {L : Ledger} (ran : Obscura.applyBlock V c.ledger b = (none, L)) :
    ∃ next, c.applyBlock V true b = (none, next) ∧ next.ledger = L ∧
      next.verifiedProofs = c.verifiedProofs ∧ SameTree c next := by
  obtain ⟨written, same, cases⟩ := c.applyBlock_cases V true b
  have tree := SameTree.applyBlock (V := V) c true b
  rw [if_pos rfl] at same
  rcases cases with ⟨-, refused⟩ | ⟨result, L', ran', applied⟩
  · rw [ran] at refused
    exact nomatch (Prod.mk.inj refused).1
  · obtain ⟨rfl, rfl⟩ := Prod.mk.inj (ran.symm.trans ran')
    have cached := SameState.cacheBlock { written with ledger := L } b
    rw [applied] at tree ⊢
    refine ⟨_, rfl, cached.ledger, cached.verifiedProofs.trans ?_, tree⟩
    rw [same]
    rfl

/-- The node's state is the replay of a chain, and its cache was filled along it. -/
structure Tracks (V : Primitives) (chain : List Block) (c : Chain) : Prop where
  ledger : c.ledger = replay V chain
  cache : CacheRun V chain c.verifiedProofs

theorem Tracks.same {chain : List Block} (tracks : Tracks V chain c) (same : SameState c c') :
    Tracks V chain c' :=
  ⟨same.ledger.trans tracks.ledger, same.verifiedProofs ▸ tracks.cache⟩

/-- What a block leaves behind that arrives at the tip: `AddBlock` fails and the chain stands, or
the block was there already, or it is the new tip. -/
inductive Arrived (V : Primitives) (chain : List Block) (parallel : Bool) (now : Int) (c : Chain)
    (b : Block) : List Outcome → Chain → Prop
  | failed {outcome : Outcome} {c' : Chain} (error : ∀ u, outcome.result ≠ .ok u)
      (tracks : Tracks V chain c') : Arrived V chain parallel now c b [outcome] c'
  | known (active : OnActive V c.ledger b) : Arrived V chain parallel now c b [.known] c
  | extended {c' : Chain} (valid : (validateBlockCached V (replay V chain) parallel now
      c.verifiedProofs b).1 = .ok ()) (tracks : Tracks V (b :: chain) c') :
      Arrived V chain parallel now c b [.extended] c'

variable {chain : List Block}

/-- The fast path, on a block that passes. -/
theorem extendTip_ran {parallel : Bool} {now : Int} {b : Block} (tracks : Tracks V chain c)
    (node : ChainNode) (valid : (validateBlockCached V (replay V chain) parallel now
      c.verifiedProofs b).1 = .ok ()) :
    ∃ next, c.extendTip V parallel now b node = (.extended, next.settleTip V node) ∧
      next.ledger = replay V (b :: chain) ∧ next.verifiedProofs = (validateBlockCached V
        (replay V chain) parallel now c.verifiedProofs b).2 ∧ SameTree c next := by
  have accepted := valid
  rw [validateBlockCached_verdict] at accepted
  obtain ⟨_, _, L', -, -, ran, -, -⟩ := tracks.cache.chained.regular.step accepted
  have ran' : Obscura.applyBlock V c.ledger b = (none, L') := by
    rw [tracks.ledger]
    exact ran
  have passed : (validateBlockCached V c.ledger parallel now c.verifiedProofs b).1 = .ok () := by
    rw [tracks.ledger]
    exact valid
  obtain ⟨next, applied, ledger, verifiedProofs, tree⟩ :=
    @applyBlock_ran V { c with verifiedProofs :=
      (validateBlockCached V c.ledger parallel now c.verifiedProofs b).2 } b L' ran'
  refine ⟨next, ?_, by rw [ledger, replay, ran], ?_, ?_⟩
  · unfold Chain.extendTip Chain.validateBlockLocked
    dsimp only
    rw [passed]
    dsimp only
    rw [applied]
  · rw [verifiedProofs, ← tracks.ledger]
  · exact ⟨tree.nodes, tree.bestHash, tree.orphans, tree.orphanMeta, tree.orphanFIFO,
      tree.orphanBytes, tree.snapshots⟩

/-- The fast path. -/
theorem extendTip_arrived (parallel : Bool) (now : Int) (b : Block) (tracks : Tracks V chain c)
    (node : ChainNode) :
    Arrived V chain parallel now c b [(c.extendTip V parallel now b node).1]
        (c.extendTip V parallel now b node).2 ∧
      (c.extendTip V parallel now b node).2.orphans = c.orphans := by
  cases valid : (validateBlockCached V (replay V chain) parallel now c.verifiedProofs b).1 with
  | error error =>
    have verdict : c.validateBlockLocked V parallel now b = (.error error,
        { c with verifiedProofs :=
          (validateBlockCached V (replay V chain) parallel now c.verifiedProofs b).2 }) := by
      rw [← valid, ← tracks.ledger]
      rfl
    unfold Chain.extendTip
    rw [verdict]
    exact ⟨.failed nofun ⟨tracks.ledger, tracks.cache.candidate parallel now b⟩, rfl⟩
  | ok _ =>
    obtain ⟨next, ran, ledger, verifiedProofs, tree⟩ := extendTip_ran tracks node valid
    rw [ran]
    have settled := SameState.settleTip (V := V) next node
    refine ⟨.extended valid (Tracks.same ⟨ledger, ?_⟩ settled), ?_⟩
    · rw [verifiedProofs]
      exact tracks.cache.connect valid
    · rw [settleTip_orphans, tree.orphans]

theorem addBlockLocked_alone {outcome : Outcome}
    (one : c.addOne V parallel now b = (outcome, c')) (out : outcome.isStored = false) :
    c.addBlockLocked V parallel now b = ([outcome], c') := by
  unfold Chain.addBlockLocked
  rw [one]
  dsimp only
  rw [if_neg (by rw [out]; exact Bool.false_ne_true)]

theorem addBlockLocked_childless {outcome : Outcome}
    (one : c.addOne V parallel now b = (outcome, c')) (out : outcome.isStored = true)
    (childless : c'.orphans[b.header.id V]?.getD [] = []) :
    c.addBlockLocked V parallel now b =
      ([outcome], { c' with orphans := c'.orphans.erase (b.header.id V) }) := by
  unfold Chain.addBlockLocked
  rw [one]
  dsimp only
  rw [if_pos out, Chain.takeOrphans, childless]
  cases c'.pooled with
  | zero => rfl
  | succ fuel => rfl

/-- Such a block on the tip arrives. -/
theorem addBlockLocked_tip {node : ChainNode} (tracks : Tracks V chain c)
    (childless : c.orphans[b.header.id V]?.getD [] = [])
    (one : c.addOne V parallel now b = c.extendTip V parallel now b node) :
    Arrived V chain parallel now c b (c.addBlockLocked V parallel now b).1
      (c.addBlockLocked V parallel now b).2 := by
  obtain ⟨arrived, orphans⟩ := extendTip_arrived parallel now b tracks node
  rw [← one] at arrived orphans
  rcases ran : c.addOne V parallel now b with ⟨outcome, c'⟩
  rw [ran] at arrived orphans
  cases arrived with
  | failed error tracks' =>
    rw [addBlockLocked_alone ran]
    · exact .failed error tracks'
    · cases outcome with
      | rejected text => rfl
      | orphan => rfl
      | reorgFailed text => rfl
      | known => exact absurd rfl (error ())
      | side => exact absurd rfl (error ())
      | extended => exact absurd rfl (error ())
      | reorged => exact absurd rfl (error ())
  | known active =>
    rw [addBlockLocked_alone ran rfl]
    exact .known active
  | extended valid tracks' =>
    rw [addBlockLocked_childless ran rfl (by rw [orphans]; exact childless)]
    exact .extended valid (tracks'.same ⟨rfl, rfl⟩)

/-- **A block at the tip.** -/
theorem addBlockLocked_arrived (parallel : Bool) (tracks : Tracks V chain c)
    (atTip : AtTip V now c b) :
    Arrived V chain parallel now c b (c.addBlockLocked V parallel now b).1
      (c.addBlockLocked V parallel now b).2 := by
  have alone (outcome : Outcome) (c' : Chain)
      (one : c.addOne V parallel now b = (outcome, c')) (out : outcome.isStored = false)
      (arrived : Arrived V chain parallel now c b [outcome] c') :
      Arrived V chain parallel now c b (c.addBlockLocked V parallel now b).1
        (c.addBlockLocked V parallel now b).2 := by
    rw [addBlockLocked_alone one out]
    exact arrived
  have refused (error : String) (one : c.addOne V parallel now b = (.rejected error, c)) :
      Arrived V chain parallel now c b (c.addBlockLocked V parallel now b).1
        (c.addBlockLocked V parallel now b).2 :=
    alone (.rejected error) c one rfl (.failed nofun tracks)
  cases present : c.nodes.contains (b.header.id V) with
  | true =>
    refine alone .known c ?_ rfl (.known (atTip.known present))
    unfold Chain.addOne
    rw [if_pos present]
  | false =>
    have absent : ¬ c.nodes.contains (b.header.id V) = true := by
      rw [present]
      exact Bool.false_ne_true
    cases arrival : c.checkArrival V now b.header with
    | error error =>
      refine refused error ?_
      unfold Chain.addOne
      rw [if_neg absent, arrival]
    | ok _ =>
      cases parentFound : c.nodes[b.header.prevHash]? with
      | none =>
        refine alone .orphan (c.bufferOrphanLocked V b) ?_ rfl
          (.failed nofun (tracks.same (.bufferOrphanLocked c b)))
        unfold Chain.addOne
        rw [if_neg absent, arrival, parentFound]
      | some parent =>
        by_cases height : b.header.height = parent.height + 1
        swap
        · refine refused (invalid s!"height {b.header.height} not parent+1") ?_
          unfold Chain.addOne
          rw [if_neg absent, arrival, parentFound]
          exact if_pos height
        cases bestFound : c.nodes[c.bestHash]? with
        | none =>
          refine refused "runtime error: invalid memory address" ?_
          unfold Chain.addOne
          rw [if_neg absent, arrival, parentFound, bestFound]
          exact if_neg (not_not.mpr height)
        | some best =>
          have one : c.addOne V parallel now b =
              if !c.becomesBest (vertex V parent b) best then
                (.side, c.storeSide (vertex V parent b))
              else if b.header.prevHash = c.bestHash then
                c.extendTip V parallel now b (vertex V parent b)
              else
                c.considerReorg V parallel now (vertex V parent b) best
                  b.header.difficulty := by
            unfold Chain.addOne
            rw [if_neg absent, arrival, parentFound, bestFound]
            exact if_neg (not_not.mpr height)
          have place :=
            atTip.connects present arrival parent best parentFound bestFound height
          rcases place with ⟨tip, childless⟩ | ⟨outranks, aside, deep, sealed⟩
          · have same : parent = best := by
              rw [tip, bestFound] at parentFound
              exact (Option.some.inj parentFound).symm
            have worth : b.header.difficulty ≠ 0 := by
              unfold Chain.checkArrival at arrival
              simp only [bind_ok, reject_ok] at arrival
              exact arrival.choose_spec.1
            have outranks : c.becomesBest (vertex V parent b) best = true := by
              unfold Chain.becomesBest
              rw [Bool.or_eq_true, decide_eq_true_eq]
              refine .inl ?_
              rw [same]
              exact Nat.lt_add_of_pos_right (Nat.pos_of_ne_zero worth)
            rw [outranks, Bool.not_true, if_neg Bool.false_ne_true, if_pos tip] at one
            exact addBlockLocked_tip tracks childless one
          · rw [outranks, Bool.not_true, if_neg Bool.false_ne_true, if_neg aside] at one
            unfold Chain.considerReorg at one
            dsimp only at one
            rw [if_pos deep, if_pos sealed] at one
            exact refused _ one

end Chain

/-! ## What leaves the pool -/

section Pool

variable {m : Mempool}

/-- What `Remove` drops was in the block, or shares a spend key with it. -/
theorem remove_lost (indexed : Mempool.Indexed V m) {txs : List Transaction} {id : Bytes}
    {e : Entry} (there : m.txs[id]? = some e) (gone : (remove V m txs).txs[id]? = none) :
    ∃ s ∈ txs, s.isCoinbase = false ∧ (hashHex V s = hashHex V e.tx ∨
      ∃ key ∈ spendKeys V e.tx, key ∈ spendKeys V s) := by
  have normal {s : Transaction} (member : s ∈ txs.filter fun t => !t.isCoinbase) :
      s ∈ txs ∧ s.isCoinbase = false := by
    simpa using List.mem_filter.mp member
  unfold remove at gone
  dsimp only at gone
  rw [deleteAll_txs] at gone
  split_ifs at gone with conflicts
  · obtain ⟨⟨id', e'⟩, listed, rfl⟩ := List.mem_map.mp conflicts
    obtain ⟨present, shares⟩ := List.mem_filter.mp listed
    have found := Std.ExtTreeMap.mem_toList_iff_getElem?_eq_some.mp present
    rw [deleteAll_txs] at found
    split_ifs at found
    obtain rfl : e = e' := Option.some.inj (there.symm.trans found)
    obtain ⟨key, held, taken⟩ := List.any_eq_true.mp shares
    obtain ⟨s, member, spends⟩ := List.mem_flatMap.mp (List.contains_iff_mem.mp taken)
    exact ⟨s, (normal member).1, (normal member).2, .inr ⟨key, held, spends⟩⟩
  · rw [deleteAll_txs] at gone
    split_ifs at gone with same
    · obtain ⟨s, member, named⟩ := List.mem_map.mp same
      refine ⟨s, (normal member).1, (normal member).2, .inl ?_⟩
      rw [named, (indexed.entries id e there).2.1]
    · exact absurd (there.symm.trans gone) (Option.some_ne_none e)

/-- What room is made for pays a higher rate than what goes. -/
theorem makeRoom_lost (listings : Nat → Listing) (rate : UInt64) (size : Nat) {id : Bytes}
    {e : Entry} (there : m.txs[id]? = some e)
    (gone : (makeRoom V listings rate size m).2.txs[id]? = none) : e.feeRate < rate := by
  induction m using makeRoom.induct V listings rate with
  | size => exact size
  | case1 m crowded none =>
    rw [makeRoom, if_pos crowded] at gone
    split at gone
    · exact absurd (there.symm.trans gone) (Option.some_ne_none e)
    · next some => simp [none] at some
  | case2 m crowded m' evicted ih =>
    rw [makeRoom, if_pos crowded] at gone
    split at gone
    · next none => simp [evicted] at none
    · next same =>
      rw [evicted] at same
      obtain rfl := Option.some.inj same
      obtain ⟨id', e', found, lower, rfl⟩ := evictLowestLocked_some V evicted
      by_cases victim : id = id'
      · rw [victim, found] at there
        rw [← Option.some.inj there]
        exact lower
      · refine ih ?_ gone
        rw [deleteLocked_txs, if_neg fun same => victim same.symm]
        exact there
  | case3 m fits =>
    rw [makeRoom, if_neg fits] at gone
    exact absurd (there.symm.trans gone) (Option.some_ne_none e)

/-- What expires has waited too long. -/
theorem expire_lost {now : Int} {id : Bytes} {e : Entry} (there : m.txs[id]? = some e)
    (gone : (expireLocked V now m).txs[id]? = none) : txTTL < now - e.added := by
  unfold expireLocked at gone
  rw [deleteAll_txs] at gone
  split_ifs at gone with old
  · obtain ⟨⟨id', e'⟩, listed, rfl⟩ := List.mem_map.mp old
    obtain ⟨present, expired⟩ := List.mem_filter.mp listed
    have found := Std.ExtTreeMap.mem_toList_iff_getElem?_eq_some.mp present
    obtain rfl : e = e' := Option.some.inj (there.symm.trans found)
    exact of_decide_eq_true expired
  · exact absurd (there.symm.trans gone) (Option.some_ne_none e)

theorem expire_kept {now : Int} {id : Bytes} {e : Entry}
    (kept : (expireLocked V now m).txs[id]? = some e) : m.txs[id]? = some e := by
  unfold expireLocked at kept
  rw [deleteAll_txs] at kept
  split_ifs at kept
  exact kept

theorem conflict_shares (indexed : Mempool.Indexed V m) {t : Transaction} {id : Bytes} {e : Entry}
    (there : m.txs[id]? = some e) (conflict : id ∈ conflictsOf V m t) :
    ∃ key ∈ spendKeys V e.tx, key ∈ spendKeys V t := by
  obtain ⟨key, taken, owned⟩ := List.mem_filterMap.mp (List.mem_dedup.mp conflict)
  obtain ⟨e', found, held⟩ := (indexed.owners key id).mp owned
  obtain rfl : e = e' := Option.some.inj (there.symm.trans found)
  exact ⟨key, held, taken⟩

/-- Admission adds the transaction, and drops only what expired, conflicts or pays less. -/
theorem addLocked_spec (indexed : Mempool.Indexed V m) (L : Ledger) (now added : Int)
    (listings : Nat → Listing) (t : Transaction) :
    (∀ (id : Bytes) (e : Entry), (addLocked V L now added listings m t).2.txs[id]? = some e →
      m.txs[id]? = some e ∨ e.tx = t) ∧
    ∀ (id : Bytes) (e : Entry), m.txs[id]? = some e →
      (addLocked V L now added listings m t).2.txs[id]? = none →
        Displaced V e (.tx now added listings t) := by
  have fresh := indexed.expire now
  have kept {id : Bytes} {e : Entry} (found : (expireLocked V now m).txs[id]? = some e) :
      m.txs[id]? = some e :=
    expire_kept found
  have lost {id : Bytes} {e : Entry} (there : m.txs[id]? = some e)
      (gone : (expireLocked V now m).txs[id]? = none) : Displaced V e (.tx now added listings t) :=
    .expired (expire_lost there gone)
  unfold addLocked
  dsimp only
  generalize expireLocked V now m = pool at fresh kept lost ⊢
  generalize (if conflictsOf V pool t = [] then _ else _ : Check Unit) = replaced
  have unchanged : (∀ (id : Bytes) (e : Entry), pool.txs[id]? = some e →
        m.txs[id]? = some e ∨ e.tx = t) ∧
      ∀ (id : Bytes) (e : Entry), m.txs[id]? = some e → pool.txs[id]? = none →
        Displaced V e (.tx now added listings t) :=
    ⟨fun _ _ found => .inl (kept found), fun _ _ there gone => lost there gone⟩
  split_ifs with present spent tagged
  · exact unchanged
  · exact unchanged
  · exact unchanged
  · split
    · exact unchanged
    · have cleared := fresh.deleteAll (conflictsOf V pool t)
      obtain ⟨-, below, -⟩ := makeRoom_spec cleared listings
        (rateOf t t.serialize.length) t.serialize.length
      have within {id : Bytes} {e : Entry}
          (found : (makeRoom V listings (rateOf t t.serialize.length) t.serialize.length
            (Mempool.deleteAll V pool (conflictsOf V pool t))).2.txs[id]? = some e) :
          m.txs[id]? = some e := by
        have old := below id e found
        rw [deleteAll_txs] at old
        split_ifs at old
        exact kept old
      have dropped {id : Bytes} {e : Entry} (there : m.txs[id]? = some e)
          (gone : (makeRoom V listings (rateOf t t.serialize.length) t.serialize.length
            (Mempool.deleteAll V pool (conflictsOf V pool t))).2.txs[id]? = none) :
          Displaced V e (.tx now added listings t) := by
        cases first : pool.txs[id]? with
        | none => exact lost there first
        | some e' =>
          obtain rfl : e = e' := Option.some.inj (there.symm.trans (kept first))
          by_cases conflict : id ∈ conflictsOf V pool t
          · obtain ⟨key, held, taken⟩ := conflict_shares fresh first conflict
            exact .replaced held taken
          · refine .evicted (makeRoom_lost listings _ _ ?_ gone)
            rw [deleteAll_txs, if_neg conflict]
            exact first
      split
      · next refused =>
        rw [refused] at within dropped
        exact ⟨fun _ _ found => .inl (within found), fun _ _ there gone => dropped there gone⟩
      · next granted =>
        rw [granted] at within dropped
        constructor
        · intro id e found
          dsimp only at found
          rw [OrdMap.lookup_insert] at found
          split_ifs at found with new
          · rw [← Option.some.inj found]
            exact .inr rfl
          · exact .inl (within found)
        · intro id e there gone
          dsimp only at gone
          rw [OrdMap.lookup_insert] at gone
          split_ifs at gone with new
          exact dropped there gone

end Pool

/-! ## Steps and runs -/

section Runs

variable {chain : List Block} {n : Node} {seen : List Block}

/-- The state of the chain is known, the index of the pool is exact, and every pooled
transaction is classical and unspent. -/
structure Agrees (V : Primitives) (chain : List Block) (n : Node) : Prop where
  tracks : Tracks V chain n.chain
  indexed : Mempool.Indexed V n.mp
  pooled : ∀ (id : Bytes) (e : Entry), n.mp.txs[id]? = some e →
    Unspent V (replay V chain) e.tx ∧ e.tx.pqInputs = [] ∧
      ∀ input ∈ e.tx.inputs, input.keyImage.length = 32

theorem Agrees.unspent (agrees : Agrees V chain n) (id : Bytes) (e : Entry)
    (found : n.mp.txs[id]? = some e) : Unspent V n.chain.ledger e.tx := by
  rw [agrees.tracks.ledger]
  exact (agrees.pooled id e found).1

theorem Agrees.stands {n' : Node} {event : Event} (agrees : Agrees V chain n')
    (pool : n'.mp = n.mp) : Consistent V seen n event n' := by
  refine ⟨agrees.unspent, fun id e there gone => ?_⟩
  rw [pool] at gone
  exact absurd (there.symm.trans gone) (Option.some_ne_none e)

/-- A block at the tip keeps pool and chain in agreement. -/
theorem recvBlock_agrees (seen : List Block) (agrees : Agrees V chain n) (parallel : Bool)
    {now : Int} {b : Block}
    (atTip : AtTip V now n.chain b) :
    (∃ chain', Agrees V chain' (recvBlock V parallel now n b)) ∧
      Consistent V (b :: seen) n (.block parallel now b) (recvBlock V parallel now n b) := by
  have arrived := addBlockLocked_arrived parallel agrees.tracks atTip
  unfold recvBlock
  generalize n.chain.addBlockLocked V parallel now b = result at arrived ⊢
  obtain ⟨outcomes, c'⟩ := result
  dsimp only at arrived ⊢
  cases arrived with
  | @failed outcome c' error tracks =>
    have next : Agrees V chain ⟨c', n.mp⟩ := ⟨tracks, agrees.indexed, agrees.pooled⟩
    cases verdict : outcome.result with
    | ok u => exact absurd verdict (error u)
    | error text =>
      simp only [List.head?_cons, Option.map_some, verdict]
      exact ⟨⟨chain, next⟩, next.stands rfl⟩
  | known active =>
    have next : Agrees V chain ⟨n.chain, remove V n.mp b.txs⟩ :=
      ⟨agrees.tracks, agrees.indexed.remove b.txs,
        fun id e kept => agrees.pooled id e (remove_kept kept).1⟩
    refine ⟨⟨chain, next⟩, next.unspent, fun id e there gone => .inl ?_⟩
    exact ⟨b, List.mem_cons_self, active, remove_lost agrees.indexed there gone⟩
  | extended valid tracks =>
    have chained := agrees.tracks.cache.chained
    have accepted := valid
    rw [validateBlockCached_verdict] at accepted
    obtain ⟨cb, txs, L', accepted, height, ran, applied, regular⟩ :=
      chained.regular.step accepted
    have state : replay V (b :: chain) = L' := by rw [replay, ran]
    have behind := chained.stores.behind (chained.stores.step accepted applied)
    have next : Agrees V (b :: chain) ⟨c', remove V n.mp b.txs⟩ := by
      refine ⟨tracks, agrees.indexed.remove b.txs, fun id e kept => ?_⟩
      obtain ⟨there, keys⟩ := remove_kept kept
      obtain ⟨unspent, noPQ, images⟩ := agrees.pooled id e there
      rw [state]
      exact ⟨unspent.behind noPQ images behind accepted applied (apart_of_keys accepted keys),
        noPQ, images⟩
    have active : OnActive V c'.ledger b := by
      refine ⟨?_, accepted.merkle⟩
      rw [tracks.ledger, state, applied.headers]
      exact List.mem_append_right _ List.mem_cons_self
    refine ⟨⟨b :: chain, next⟩, next.unspent, fun id e there gone => .inl ?_⟩
    exact ⟨b, List.mem_cons_self, active, remove_lost agrees.indexed there gone⟩

/-- A transaction keeps them in agreement. -/
theorem recvTx_agrees (seen : List Block) (agrees : Agrees V chain n) (now added : Int)
    (listings : Nat → Listing) (t : Transaction) :
    Agrees V chain (recvTx V now added listings n t) ∧
      Consistent V seen n (.tx now added listings t) (recvTx V now added listings n t) := by
  unfold recvTx
  cases precheck (n.mp.txs[hashHex V t]?).isSome (.ok ()) t with
  | error error => exact ⟨agrees, agrees.stands rfl⟩
  | ok _ =>
    have cached : Tracks V chain { n.chain with
        verifiedProofs := (validateStandaloneTx V n.chain.ledger
          n.chain.verifiedProofs t).2 } := by
      refine ⟨agrees.tracks.ledger, ?_⟩
      dsimp only
      rw [agrees.tracks.ledger]
      exact agrees.tracks.cache.standalone t
    dsimp only
    cases verdict : (validateStandaloneTx V n.chain.ledger n.chain.verifiedProofs t).1 with
    | error error =>
      have next : Agrees V chain ⟨{ n.chain with
          verifiedProofs := (validateStandaloneTx V n.chain.ledger
            n.chain.verifiedProofs t).2 }, n.mp⟩ :=
        ⟨cached, agrees.indexed, agrees.pooled⟩
      exact ⟨next, next.stands rfl⟩
    | ok _ =>
      rw [agrees.tracks.ledger] at verdict
      have admitted := unspent_of_standalone agrees.tracks.cache verdict
      obtain ⟨kept, lost⟩ :=
        addLocked_spec agrees.indexed n.chain.ledger now added listings t
      have next : Agrees V chain ⟨{ n.chain with
          verifiedProofs := (validateStandaloneTx V n.chain.ledger
            n.chain.verifiedProofs t).2 },
          (addLocked V n.chain.ledger now added listings n.mp t).2⟩ := by
        refine ⟨cached, agrees.indexed.add _ now added listings t, fun id e found => ?_⟩
        rcases kept id e found with old | new
        · exact agrees.pooled id e old
        · rw [new]
          exact admitted
      exact ⟨next, next.unspent, fun id e there gone => .inr (lost id e there gone)⟩

theorem run_consistent (agrees : Agrees V chain n) (events : List Event)
    (atTip : AtTipRun V n events) : ConsistentRun V seen n events := by
  induction events generalizing chain n seen with
  | nil => trivial
  | cons event events ih =>
    obtain ⟨first, rest⟩ := atTip
    cases event with
    | block parallel now b =>
      obtain ⟨⟨chain', next⟩, consistent⟩ :=
        recvBlock_agrees seen agrees parallel first
      exact ⟨consistent, ih next rest⟩
    | tx now added listings t =>
      obtain ⟨next, consistent⟩ := recvTx_agrees seen agrees now added listings t
      exact ⟨consistent, ih next rest⟩

theorem blank_replay (parallel : Bool) (now : Int) :
    (Chain.blank V).replay V parallel now = (none, Chain.blank V) := by
  have bare : (Chain.blank V).restoreSnapshotAtMostLocked (2 ^ 64 - 1) = none := by
    unfold Chain.restoreSnapshotAtMostLocked
    rw [show (Chain.blank V).snapshots.toList = [] from rfl]
    rfl
  have start : (Chain.blank V).replayStart V = (0, Chain.blank V) := by
    unfold Chain.replayStart
    rw [bare]
    rfl
  unfold Chain.replay
  rw [start]
  rfl

/-- A new node indexes the genesis block. -/
theorem blank_opened (parallel : Bool) (now : Int) :
    ∃ c : Chain, Chain.new V parallel now (Chain.blank V) = .ok (c.indexActiveChain V) ∧
      c.ledger = genesisLedger V ∧ c.verifiedProofs = ∅ ∧ SameTree (Chain.blank V) c := by
  obtain ⟨ran, -⟩ := genesis_applied (V := V)
  obtain ⟨c, applied, ledger, verifiedProofs, tree⟩ := @applyBlock_ran V (Chain.blank V) _ _ ran
  have applied' : (Chain.blank V).applyBlock V true (genesisBlock V (Chain.blank V).ledger) =
      (none, c) := applied
  refine ⟨c, ?_, ledger, verifiedProofs, tree⟩
  unfold Chain.new
  rw [blank_replay]
  dsimp only
  rw [if_pos (show (Chain.blank V).ledger.headers = [] from rfl), applied']

theorem new_tracks {parallel : Bool} {now : Int} {c : Chain}
    (created : Chain.new V parallel now (Chain.blank V) = .ok c) : Tracks V [] c := by
  obtain ⟨c', opened, ledger, verifiedProofs, -⟩ := blank_opened (V := V) parallel now
  obtain rfl := Except.ok.inj (opened.symm.trans created)
  obtain ⟨nodes, best, same, -, -⟩ := c'.indexActiveChain_lists (V := V)
  rw [same]
  refine ⟨ledger, ?_⟩
  rw [verifiedProofs]
  exact .start

/-- **The pool and the active chain.** In a run of a new node in which every block arrives at the
tip, no pooled transaction spends what the active chain has spent, and one leaves the pool only
for a transaction on the active chain that equals it or conflicts with it, or because it expired,
was replaced or was evicted. -/
theorem pool_consistent {parallel : Bool} {now : Int} {c : Chain}
    (created : Chain.new V parallel now (Chain.blank V) = .ok c) (events : List Event)
    (atTip : AtTipRun V ⟨c, {}⟩ events) : ConsistentRun V [] ⟨c, {}⟩ events :=
  run_consistent ⟨new_tracks created, .new V, by simp⟩ events atTip

end Runs

end Obscura.P2p.Relay
