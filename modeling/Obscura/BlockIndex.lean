import Mathlib.Data.List.ReduceOption
import Obscura.ForkChoice
import Obscura.HeaderChain

/-! # The block index

What holds of a node in every state it can reach, failed reorganizations and restarts
included: every block it holds, in memory or on disk, is genesis or one it was handed, the
headers of its active chain and of its snapshots are linked, and every vertex of the block
tree has its parent there.
-/

namespace Obscura

open Wire Tx Checked

/-- The genesis block of an empty database. -/
def genesis (V : Primitives) : Block := genesisBlock V (.empty V)

/-! ## Runs -/

/-- The states of a node that was handed the blocks of a list, newest first: created on an
empty directory, and after any calls that change it, with restarts in between. -/
inductive Reachable (V : Primitives) : List Block → Chain → Prop where
  | create {parallel : Bool} {now : Int} {c : Chain} :
      Chain.new V parallel now (Chain.blank V) = .ok c → Reachable V [] c
  | addBlock {seen : List Block} {c : Chain} (parallel : Bool) (now : Int) (b : Block) :
      Reachable V seen c → Reachable V (b :: seen) (c.addBlockLocked V parallel now b).2
  | saveSnapshot {seen : List Block} {c : Chain} :
      Reachable V seen c → Reachable V seen c.saveSnapshotLocked
  | checkTx {seen : List Block} {c : Chain} (t : Transaction) :
      Reachable V seen c → Reachable V seen
        { c with verifiedProofs := (validateStandaloneTx V c.ledger c.verifiedProofs t).2 }
  | reopen {seen : List Block} {c c' : Chain} {parallel : Bool} {now : Int} :
      Reachable V seen c → Chain.new V parallel now (c.closed V) = .ok c' → Reachable V seen c'

/-- The blocks a node has heard of are values of the source's types, and no two of them
collide: an id determines the header. -/
structure Sound (V : Primitives) (heard : Block → Prop) : Prop where
  typed : ∀ b, heard b → b.Typed
  apart : ∀ b, heard b → ∀ b', heard b' → b.header.id V = b'.header.id V → b.header = b'.header

/-- Genesis, or a block that was handed over. -/
def Heard (V : Primitives) (seen : List Block) (b : Block) : Prop := b = genesis V ∨ b ∈ seen

/-! ## The invariant -/

/-- Headers of known blocks, each on top of the one before. -/
structure Linked (V : Primitives) (heard : Block → Prop) (headers : List Header) : Prop where
  known : ∀ h ∈ headers, ∃ b, heard b ∧ b.header = h
  heights : ∀ (i : Nat) (h : Header), headers[i]? = some h → h.height = i
  links : ∀ (i : Nat) (h next : Header), headers[i]? = some h → headers[i + 1]? = some next →
    next.prevHash = h.id V

/-- A vertex stands for a known block and has its parent in the tree. -/
structure Vertex (V : Primitives) (heard : Block → Prop) (nodes : GoMap ChainNode)
    (n : ChainNode) : Prop where
  block : ∃ b, heard b ∧ b.header.id V = n.hash ∧ b.header.prevHash = n.prev ∧
    b.header.height = n.height
  body : ∀ b, n.block = some b → heard b ∧ b.header.id V = n.hash
  parent : n.height ≠ 0 → ∃ p, nodes[n.prev]? = some p ∧ n.height = p.height + 1

/-- The headers, the tree and the bodies of a chain tell of blocks that the node has heard. -/
structure Indexed (V : Primitives) (heard : Block → Prop) (c : Chain) : Prop where
  headers : Linked V heard c.ledger.headers
  nodes : ∀ (id : Hash) (n : ChainNode), c.nodes[id]? = some n →
    n.hash = id ∧ Vertex V heard c.nodes n
  blocks : ∀ (height : Nat) (b : Block), c.blocks[height]? = some b →
    heard b ∧ b.header.height = height
  stored : ∀ (height : Nat) (data : Bytes), c.stored[height]? = some data →
    ∃ b, heard b ∧ data = b.serialize ∧ b.header.height = height
  snapshots : ∀ (height : Nat) (s : Snapshot), c.snapshots[height]? = some s →
    Linked V heard s.headers
  orphans : ∀ (parent : Hash) (children : List Block), c.orphans[parent]? = some children →
    ∀ b ∈ children, heard b

variable {V : Primitives} {heard : Block → Prop}

namespace Linked

theorem nil : Linked V heard [] where
  known := fun _ member => absurd member List.not_mem_nil
  heights := fun i h found => absurd found (by simp)
  links := fun i h next found => absurd found (by simp)

theorem mono {more : Block → Prop} (wider : ∀ b, heard b → more b) {headers : List Header}
    (linked : Linked V heard headers) : Linked V more headers where
  known := by
    intro h member
    obtain ⟨b, known, same⟩ := linked.known h member
    exact ⟨b, wider b known, same⟩
  heights := linked.heights
  links := linked.links

/-- A header fits on top: it starts the chain, or it follows the tip. -/
def Fits (V : Primitives) (headers : List Header) (h : Header) : Prop :=
  h.height = headers.length ∧ ∀ tip, headers.getLast? = some tip → h.prevHash = tip.id V

/-- A block that fits extends a linked chain. -/
theorem append {headers : List Header} {b : Block} (linked : Linked V heard headers)
    (known : heard b) (fits : Fits V headers b.header) :
    Linked V heard (headers ++ [b.header]) := by
  constructor
  case known =>
    intro h member
    rcases List.mem_append.mp member with member | member
    · exact linked.known h member
    · exact ⟨b, known, (List.mem_singleton.mp member).symm⟩
  case heights =>
    intro i h found
    by_cases old : i < headers.length
    · rw [List.getElem?_append_left old] at found
      exact linked.heights i h found
    · rw [List.getElem?_append_right (by omega), List.getElem?_singleton] at found
      split at found
      · obtain rfl := Option.some.inj found
        rw [fits.1]
        omega
      · exact absurd found (by simp)
  case links =>
    intro i h next first second
    by_cases old : i + 1 < headers.length
    · rw [List.getElem?_append_left (by omega)] at first
      rw [List.getElem?_append_left old] at second
      exact linked.links i h next first second
    · rw [List.getElem?_append_right (by omega), List.getElem?_singleton] at second
      split at second
      · rename_i last
        obtain rfl := Option.some.inj second
        rw [List.getElem?_append_left (by omega)] at first
        refine fits.2 h ?_
        rw [List.getLast?_eq_getElem?, show headers.length - 1 = i by omega]
        exact first
      · exact absurd second (by simp)

end Linked

/-! ## Applying a block -/

section Apply

theorem foldl_headers {α : Type} {step : Ledger → α → Ledger} {values : List α}
    (keeps : ∀ L value, (step L value).headers = L.headers) (L : Ledger) :
    (values.foldl step L).headers = L.headers := by
  induction values generalizing L with
  | nil => rfl
  | cons value values ih => rw [List.foldl_cons, ih, keeps]

theorem runUntil_headers {α : Type} {step : Ledger → α → Except String Ledger} {values : List α}
    (keeps : ∀ L value next, step L value = .ok next → next.headers = L.headers) (L : Ledger) :
    (runUntil step L values).2.headers = L.headers := by
  induction values generalizing L with
  | nil => rfl
  | cons value values ih =>
    rw [runUntil]
    cases outcome : step L value with
    | error error => rfl
    | ok next => exact (ih next).trans (keeps L value next outcome)

/-- Spends leave the headers alone. -/
theorem applySpends_headers (L : Ledger) (t : Transaction) :
    (applySpends V L t).headers = L.headers := by
  unfold applySpends
  split_ifs
  · rfl
  · have anon : ∀ (L : Ledger) (input : AnonInput),
        (applyTag V L (recordedTag V input.tag)).headers = L.headers := fun _ _ => rfl
    have plain : ∀ (L : Ledger) (input : Input), (applyInput V L input).headers = L.headers := by
      intro L input
      unfold applyInput
      dsimp only
      split_ifs <;> rfl
    exact (foldl_headers anon _).trans (foldl_headers plain _)

theorem applyVaults_headers (height : Nat) (L : Ledger) (t : Transaction) :
    (applyVaults height L t).headers = L.headers := by
  unfold applyVaults
  split_ifs
  · rfl
  · have opened : ∀ (L : Ledger) (vo : VaultOut),
        (applyVaultOutput height L vo).headers = L.headers := fun _ _ => rfl
    have claimed : ∀ (L : Ledger) (input : VaultIn),
        (applyVaultInput L input).headers = L.headers := by
      intro L input
      unfold applyVaultInput
      dsimp only
      split_ifs <;> rfl
    exact (foldl_headers opened _).trans (foldl_headers claimed _)

/-- Settling a block adds its header. -/
theorem settleBlock_headers (b : Block) (cb : Transaction) (L : Ledger) :
    (settleBlock V b cb L).headers = L.headers ++ [b.header] := by
  have spent : (spendAndFund V b L).headers = L.headers := by
    have funded : ∀ (L : Ledger) (so : SwapOut), (applySwapOutput L so).headers = L.headers :=
      fun _ _ => rfl
    refine (foldl_headers funded _).trans ((foldl_headers applySpends_headers _).trans ?_)
    unfold recordPQRoot
    split_ifs <;> rfl
  have economics : ∀ L : Ledger,
      (applyEconomics b.header.height cb.referrerTag L).headers = L.headers := by
    intro L
    unfold applyEconomics
    split_ifs <;> rfl
  unfold settleBlock applyIndex
  dsimp only
  rw [economics, foldl_headers (applyVaults_headers _), spent]

/-- What applying a block does to the active chain, on any state. -/
theorem applyBlock_headers {L L' : Ledger} {b : Block} {result : Option String}
    (ran : applyBlock V L b = (result, L')) :
    L'.headers = if result.isNone then L.headers ++ [b.header] else L.headers := by
  have outputs : ∀ (L : Ledger) (entry : Bool × Output) next,
      applyOutput V b.header.height L entry = .ok next → next.headers = L.headers := by
    intro L entry next ran
    unfold applyOutput at ran
    dsimp only at ran
    split at ran
    · rw [← Except.ok.inj ran]
    · split_ifs at ran
      rw [← Except.ok.inj ran]
  have pqOutputs : ∀ (L : Ledger) (o : PQOutput) next,
      applyPQOutput V L o = .ok next → next.headers = L.headers := by
    intro L o next ran
    unfold applyPQOutput at ran
    dsimp only at ran
    split_ifs at ran
    rw [← Except.ok.inj ran]
  have leaves : ∀ L : Ledger, (applyLeaves V b.txs (applyAccumulator V b.txs L)).headers =
      L.headers := by
    intro L
    unfold applyLeaves recordCMAnchor
    split_ifs <;> rfl
  have front := @runUntil_headers _ _ (outputsOf b.txs) outputs L
  unfold applyBlock at ran
  split at ran
  · obtain ⟨rfl, rfl⟩ := Prod.mk.inj ran
    rfl
  split_ifs at ran
  · obtain ⟨rfl, rfl⟩ := Prod.mk.inj ran
    rfl
  split at ran
  · rename_i error mid first
    rw [first] at front
    obtain ⟨rfl, rfl⟩ := Prod.mk.inj ran
    exact front
  rename_i mid first
  rw [first] at front
  have back := @runUntil_headers _ _ (b.txs.flatMap Transaction.pqOutputs) pqOutputs
    (applyLeaves V b.txs (applyAccumulator V b.txs mid))
  dsimp only at ran
  split at ran
  · rename_i error last second
    rw [second] at back
    obtain ⟨rfl, rfl⟩ := Prod.mk.inj ran
    exact back.trans ((leaves mid).trans front)
  · rename_i last second
    rw [second] at back
    obtain ⟨rfl, rfl⟩ := Prod.mk.inj ran
    dsimp only at back front
    rw [settleBlock_headers, back, leaves, front]
    rfl

/-- A validated block fits on the tip. -/
theorem validated_fits {parallel : Bool} {now : Int} {cache : ProofCache} {L : Ledger} {b : Block}
    (linked : Linked V heard L.headers)
    (valid : (validateBlockCached V L parallel now cache b).1 = .ok ()) :
    Linked.Fits V L.headers b.header := by
  have front : ∃ result, validateFront V L now b = .ok result := by
    unfold validateBlockCached at valid
    cases front : validateFront V L now b with
    | error error => rw [front] at valid; exact nomatch valid
    | ok result => exact ⟨result, rfl⟩
  obtain ⟨result, front⟩ := front
  unfold validateFront at front
  obtain ⟨tip, found, front⟩ := bind_ok.mp front
  obtain ⟨_, header, _⟩ := bind_ok.mp front
  have accepted := checkHeader_ok.mp header
  rw [orReject_ok, Ledger.tip?] at found
  constructor
  · rw [List.getLast?_eq_getElem?] at found
    have height := linked.heights _ _ found
    obtain ⟨inside, -⟩ := List.getElem?_eq_some_iff.mp found
    rw [accepted.height, height]
    omega
  · intro last foundLast
    obtain rfl := Option.some.inj (found.symm.trans foundLast)
    exact accepted.prevHash

end Apply

/-! ## The operations keep it -/

namespace Indexed

variable {c : Chain} {b : Block} {parallel : Bool} {now : Int}

/-- The index survives a block in the cache. -/
theorem cacheBlock (indexed : Indexed V heard c) (known : heard b) :
    Indexed V heard (c.cacheBlock b) := by
  have cached : ∀ (height : Nat) (found : Block),
      (c.blocks.insert b.header.height b)[height]? = some found →
        heard found ∧ found.header.height = height := by
    intro height found lookup
    rw [OrdMap.lookup_insert] at lookup
    split_ifs at lookup with same
    · obtain rfl := Option.some.inj lookup
      exact ⟨known, same⟩
    · exact indexed.blocks height found lookup
  have with_blocks : ∀ blocks : IndexMap Block,
      (∀ (height : Nat) (found : Block), blocks[height]? = some found →
        heard found ∧ found.header.height = height) →
        Indexed V heard { c with blocks } := fun blocks fits =>
    ⟨indexed.headers, indexed.nodes, fits, indexed.stored, indexed.snapshots, indexed.orphans⟩
  unfold Chain.cacheBlock
  dsimp only
  split_ifs
  · exact with_blocks _ cached
  · split
    · refine with_blocks _ fun height found lookup => ?_
      rw [OrdMap.lookup_erase] at lookup
      split_ifs at lookup
      exact cached height found lookup
    · exact with_blocks _ cached

theorem persistBlock (indexed : Indexed V heard c) (known : heard b) :
    Indexed V heard (c.persistBlock b) := by
  refine ⟨indexed.headers, indexed.nodes, indexed.blocks, fun height data lookup => ?_,
    indexed.snapshots, indexed.orphans⟩
  unfold Chain.persistBlock at lookup
  rw [OrdMap.lookup_insert] at lookup
  split_ifs at lookup with same
  · exact ⟨b, known, (Option.some.inj lookup).symm, same⟩
  · exact indexed.stored height data lookup

/-- A known block that fits on the tip is applied. -/
theorem applyBlock (indexed : Indexed V heard c) (known : heard b)
    (fits : Linked.Fits V c.ledger.headers b.header) (persist : Bool) :
    Indexed V heard (c.applyBlock V persist b).2 := by
  obtain ⟨written, same, cases⟩ := c.applyBlock_cases V persist b
  have kept : Indexed V heard written := by
    rw [same]
    split_ifs
    · exact indexed.persistBlock known
    · exact indexed
  rcases cases with ⟨refused, -⟩ | ⟨result, L, ran, applied⟩
  · rw [refused]
    exact indexed
  · have linked : Linked V heard L.headers := by
      rw [applyBlock_headers ran]
      split_ifs
      · exact indexed.headers.append known fits
      · exact indexed.headers
    have next : Indexed V heard { written with ledger := L } :=
      ⟨linked, kept.nodes, kept.blocks, kept.stored, kept.snapshots, kept.orphans⟩
    rw [applied]
    dsimp only
    split_ifs
    · exact next.cacheBlock known
    · exact next

theorem validateBlockLocked (indexed : Indexed V heard c) :
    Indexed V heard (c.validateBlockLocked V parallel now b).2 :=
  ⟨indexed.headers, indexed.nodes, indexed.blocks, indexed.stored, indexed.snapshots,
    indexed.orphans⟩

theorem validated_fits (indexed : Indexed V heard c)
    (valid : (c.validateBlockLocked V parallel now b).1 = .ok ()) :
    Linked.Fits V c.ledger.headers b.header :=
  Obscura.validated_fits indexed.headers valid

theorem connectBlock (indexed : Indexed V heard c) (known : heard b)
    (first : b.header.height = 0 → c.ledger.headers = []) (persist : Bool) :
    Indexed V heard (c.connectBlock V parallel now persist b).2 := by
  unfold Chain.connectBlock
  split_ifs with start
  · refine indexed.applyBlock known ⟨?_, fun tip found => ?_⟩ persist
    · rw [first start, start]
      rfl
    · rw [first start] at found
      exact absurd found (by simp)
  · have kept : Indexed V heard (c.validateBlockLocked V parallel now b).2 :=
      indexed.validateBlockLocked
    cases outcome : c.validateBlockLocked V parallel now b with
    | mk verdict c' =>
      rw [outcome] at kept
      cases verdict with
      | error error => exact kept
      | ok result =>
        have fits := indexed.validated_fits (by rw [outcome])
        have same : c'.ledger = c.ledger := by
          have ledger : (c.validateBlockLocked V parallel now b).2.ledger = c.ledger := rfl
          rwa [outcome] at ledger
        exact kept.applyBlock known (by rw [same]; exact fits) persist

theorem connectAll (indexed : Indexed V heard c) {blocks : List Block}
    (known : ∀ b ∈ blocks, heard b ∧ b.header.height ≠ 0) (persist : Bool) :
    Indexed V heard (stepUntil (Chain.connectBlock V parallel now persist) c blocks).2 := by
  refine stepUntil_invariant (Indexed V heard) (fun c b member indexed => ?_) indexed
  exact indexed.connectBlock (known b member).1 (fun zero => absurd zero (known b member).2) persist

/-! ### Snapshots -/

theorem restoreSnapshotAtMostLocked (indexed : Indexed V heard c) {most height : Nat}
    {restored : Chain} (found : c.restoreSnapshotAtMostLocked most = some (height, restored)) :
    Indexed V heard restored := by
  unfold Chain.restoreSnapshotAtMostLocked at found
  obtain ⟨entry, last, same⟩ := Option.map_eq_some_iff.mp found
  obtain ⟨rfl, rfl⟩ := Prod.mk.inj same
  have member := (List.mem_filter.mp (List.mem_of_getLast? last)).1
  have lookup : c.snapshots[entry.1]? = some entry.2 :=
    Std.ExtTreeMap.mem_toList_iff_getElem?_eq_some.mp member
  exact ⟨indexed.snapshots _ _ lookup, indexed.nodes, fun height b found => absurd found (by simp),
    indexed.stored, indexed.snapshots, indexed.orphans⟩

theorem resetState (indexed : Indexed V heard c) : Indexed V heard (c.resetState V) :=
  ⟨Linked.nil, indexed.nodes, fun height b found => absurd found (by simp [Chain.resetState]),
    indexed.stored, indexed.snapshots, indexed.orphans⟩

theorem truncateStores (indexed : Indexed V heard c) : Indexed V heard c.truncateStores :=
  ⟨indexed.headers, indexed.nodes, indexed.blocks, indexed.stored, indexed.snapshots,
    indexed.orphans⟩

theorem pruneBodies (indexed : Indexed V heard c) (below : Nat) :
    Indexed V heard (c.pruneBodies below) := by
  refine ⟨indexed.headers, indexed.nodes, indexed.blocks, fun height data lookup => ?_,
    indexed.snapshots, indexed.orphans⟩
  unfold Chain.pruneBodies at lookup
  rw [OrdMap.lookup_eraseAll] at lookup
  split_ifs at lookup
  exact indexed.stored height data lookup

/-- The index survives a snapshot that is saved. -/
theorem saveSnapshotLocked (indexed : Indexed V heard c) :
    Indexed V heard c.saveSnapshotLocked := by
  have saved : ∀ dropped : List Nat, Indexed V heard
      { c with snapshots := (OrdMap.eraseAll
          (c.snapshots.insert c.ledger.tipHeight c.ledger.encodeSnapshotLocked) dropped) } := by
    intro dropped
    refine ⟨indexed.headers, indexed.nodes, indexed.blocks, indexed.stored,
      fun height s lookup => ?_, indexed.orphans⟩
    rw [OrdMap.lookup_eraseAll] at lookup
    split_ifs at lookup
    rw [OrdMap.lookup_insert] at lookup
    split_ifs at lookup
    · obtain rfl := Option.some.inj lookup
      exact indexed.headers
    · exact indexed.snapshots height s lookup
  unfold Chain.saveSnapshotLocked
  dsimp only
  split_ifs
  · exact saved _
  · exact (saved _).pruneBodies _

end Indexed

/-! ## What a rebuild leaves alone -/

/-- The block tree, the orphan pool and the stored snapshots are the same. -/
structure SameTree (c c' : Chain) : Prop where
  nodes : c'.nodes = c.nodes
  bestHash : c'.bestHash = c.bestHash
  orphans : c'.orphans = c.orphans
  orphanMeta : c'.orphanMeta = c.orphanMeta
  orphanFIFO : c'.orphanFIFO = c.orphanFIFO
  orphanBytes : c'.orphanBytes = c.orphanBytes
  snapshots : c'.snapshots = c.snapshots

namespace SameTree

variable {c c' c'' : Chain} {parallel : Bool} {now : Int}

theorem refl (c : Chain) : SameTree c c := ⟨rfl, rfl, rfl, rfl, rfl, rfl, rfl⟩

theorem trans (first : SameTree c c') (second : SameTree c' c'') : SameTree c c'' :=
  ⟨second.nodes.trans first.nodes, second.bestHash.trans first.bestHash,
    second.orphans.trans first.orphans, second.orphanMeta.trans first.orphanMeta,
    second.orphanFIFO.trans first.orphanFIFO, second.orphanBytes.trans first.orphanBytes,
    second.snapshots.trans first.snapshots⟩

theorem cacheBlock (c : Chain) (b : Block) : SameTree c (c.cacheBlock b) := by
  unfold Chain.cacheBlock
  dsimp only
  split_ifs
  · exact ⟨rfl, rfl, rfl, rfl, rfl, rfl, rfl⟩
  · split <;> exact ⟨rfl, rfl, rfl, rfl, rfl, rfl, rfl⟩

theorem applyBlock (c : Chain) (persist : Bool) (b : Block) :
    SameTree c (c.applyBlock V persist b).2 := by
  obtain ⟨written, same, cases⟩ := c.applyBlock_cases V persist b
  have tree : SameTree c written := by
    rw [same]
    split_ifs
    · exact ⟨rfl, rfl, rfl, rfl, rfl, rfl, rfl⟩
    · exact refl c
  rcases cases with ⟨refused, -⟩ | ⟨result, L, ran, applied⟩
  · rw [refused]
    exact refl c
  · have next : SameTree c { written with ledger := L } :=
      tree.trans ⟨rfl, rfl, rfl, rfl, rfl, rfl, rfl⟩
    rw [applied]
    dsimp only
    split_ifs
    · exact next.trans (cacheBlock _ b)
    · exact next

theorem validateBlockLocked (c : Chain) (b : Block) :
    SameTree c (c.validateBlockLocked V parallel now b).2 :=
  ⟨rfl, rfl, rfl, rfl, rfl, rfl, rfl⟩

theorem connectBlock (c : Chain) (persist : Bool) (b : Block) :
    SameTree c (c.connectBlock V parallel now persist b).2 := by
  unfold Chain.connectBlock
  split_ifs
  · exact applyBlock c persist b
  · have kept := @validateBlockLocked V parallel now c b
    split
    · rename_i error c' outcome
      rwa [outcome] at kept
    · rename_i c' outcome
      rw [outcome] at kept
      exact kept.trans (applyBlock c' persist b)

theorem connectAll (c : Chain) (persist : Bool) (blocks : List Block) :
    SameTree c (stepUntil (Chain.connectBlock V parallel now persist) c blocks).2 :=
  stepUntil_invariant (SameTree c) (fun c' b _ kept => kept.trans (connectBlock c' persist b))
    (refl c)

theorem restoreSnapshotAtMostLocked {most height : Nat} {restored : Chain}
    (found : c.restoreSnapshotAtMostLocked most = some (height, restored)) :
    SameTree c restored := by
  unfold Chain.restoreSnapshotAtMostLocked at found
  obtain ⟨entry, -, same⟩ := Option.map_eq_some_iff.mp found
  obtain ⟨rfl, rfl⟩ := Prod.mk.inj same
  exact ⟨rfl, rfl, rfl, rfl, rfl, rfl, rfl⟩

theorem rebuildStart (c : Chain) (tip forkHeight : Nat) :
    SameTree c (c.rebuildStart V tip forkHeight).2 := by
  unfold Chain.rebuildStart
  split
  · rename_i height restored found
    split_ifs at found
    exact restoreSnapshotAtMostLocked found
  · exact ⟨rfl, rfl, rfl, rfl, rfl, rfl, rfl⟩

theorem rebuildToBranchLocked (c : Chain) (branch : List (Option Block)) (forkHeight : Nat) :
    SameTree c (c.rebuildToBranchLocked V parallel now branch forkHeight).2 := by
  unfold Chain.rebuildToBranchLocked
  split
  · exact refl c
  · exact refl c
  · rename_i last _ _
    have start : SameTree c (c.rebuildStart V last.header.height forkHeight).2.truncateStores :=
      (rebuildStart c last.header.height forkHeight).trans ⟨rfl, rfl, rfl, rfl, rfl, rfl, rfl⟩
    exact start.trans (connectAll _ true _)

theorem persistActiveChainLocked (c : Chain) : SameTree c c.persistActiveChainLocked :=
  ⟨rfl, rfl, rfl, rfl, rfl, rfl, rfl⟩

theorem reorgToLocked (c : Chain) (branch : List (Option Block)) (forkHeight : Nat) :
    SameTree c (c.reorgToLocked V parallel now branch forkHeight).2 := by
  have forward := @rebuildToBranchLocked V parallel now c branch forkHeight
  unfold Chain.reorgToLocked
  split
  · rename_i c' outcome
    rwa [outcome] at forward
  · rename_i error c' outcome
    rw [outcome] at forward
    have back := @rebuildToBranchLocked V parallel now c'
      (c'.branchToLocked V c'.nodes[c'.bestHash]?) 0
    dsimp only
    split
    · rename_i again c'' outcome'
      rw [outcome'] at back
      exact forward.trans back
    · rename_i c'' outcome'
      rw [outcome'] at back
      exact (forward.trans back).trans (persistActiveChainLocked c'')

end SameTree

/-! ## Walking down the tree -/

namespace Chain

variable {c : Chain}

theorem pathFrom_none : c.pathFrom none = [] := rfl

theorem pathFrom_zero {n : ChainNode} (zero : n.height = 0) : c.pathFrom (some n) = [n] := by
  simp [pathFrom, ancestors, zero]

theorem pathFrom_succ {n p : ChainNode} (parent : c.nodes[n.prev]? = some p)
    (above : n.height = p.height + 1) :
    c.pathFrom (some n) = n :: c.pathFrom (some p) := by
  unfold pathFrom
  rw [Option.map_some, Option.getD_some, ancestors, if_neg (by omega), parent, above,
    Option.map_some, Option.getD_some]

end Chain

namespace Indexed

variable {c : Chain} {parallel : Bool} {now : Int}

/-- The vertices on a path, by their height. -/
theorem path (indexed : Indexed V heard c) {n : ChainNode} (vertex : Vertex V heard c.nodes n) :
    (c.pathFrom (some n)).length = n.height + 1 ∧
      ∀ (k : Nat) (m : ChainNode), (c.pathFrom (some n))[k]? = some m →
        Vertex V heard c.nodes m ∧ m.height + k = n.height := by
  generalize size : n.height = height
  induction height generalizing n with
  | zero =>
    rw [Chain.pathFrom_zero size]
    refine ⟨rfl, fun k m found => ?_⟩
    cases k with
    | zero =>
      obtain rfl := Option.some.inj found
      exact ⟨vertex, size⟩
    | succ k => exact absurd found (by simp)
  | succ height ih =>
    obtain ⟨p, parent, above⟩ := vertex.parent (by omega)
    have vertex' := (indexed.nodes _ _ parent).2
    obtain ⟨length, below⟩ := ih vertex' (by omega)
    rw [Chain.pathFrom_succ parent above, List.length_cons, length]
    refine ⟨rfl, fun k m found => ?_⟩
    cases k with
    | zero =>
      obtain rfl := Option.some.inj found
      exact ⟨vertex, by omega⟩
    | succ k =>
      obtain ⟨vertex', sum⟩ := below k m found
      exact ⟨vertex', by omega⟩

/-- A body that is at hand belongs to the vertex. -/
theorem bodyForNode (sound : Sound V heard) (indexed : Indexed V heard c) {n : ChainNode}
    (vertex : Vertex V heard c.nodes n) {b : Block} (found : c.bodyForNode V n = some b) :
    heard b ∧ b.header.id V = n.hash ∧ b.header.height = n.height := by
  have known : heard b ∧ b.header.id V = n.hash := by
    unfold Chain.bodyForNode at found
    cases held : n.block with
    | some own =>
      rw [held] at found
      obtain rfl := Option.some.inj found
      exact vertex.body own held
    | none =>
      rw [held, Option.none_or] at found
      obtain ⟨read, same⟩ := Option.filter_eq_some_iff.mp found
      refine ⟨?_, by simpa using same⟩
      unfold Chain.bodyAtHeight at read
      rcases Option.or_eq_some_iff.mp read with cached | ⟨-, loaded⟩
      · exact (indexed.blocks _ _ cached).1
      · obtain ⟨data, stored, decoded⟩ := Option.bind_eq_some_iff.mp loaded
        obtain ⟨own, known, rfl, -⟩ := indexed.stored _ _ stored
        cases outcome : deserializeBlock own.serialize with
        | error message => rw [outcome] at decoded; exact nomatch decoded
        | ok read =>
          rw [outcome] at decoded
          obtain rfl := Option.some.inj decoded
          rwa [deserializeBlock_faithful (sound.typed own known) outcome]
  obtain ⟨own, ownKnown, id, -, height⟩ := vertex.block
  have header := sound.apart b known.1 own ownKnown (known.2.trans id.symm)
  exact ⟨known.1, known.2, by rw [header, height]⟩

/-- The bodies of a branch, by their position. -/
theorem branchToLocked (sound : Sound V heard) (indexed : Indexed V heard c) {n : Option ChainNode}
    (vertex : ∀ m, n = some m → Vertex V heard c.nodes m) {i : Nat} {b : Block}
    (found : (c.branchToLocked V n)[i]? = some (some b)) :
    heard b ∧ b.header.height = i := by
  cases n with
  | none => exact absurd found (by simp [Chain.branchToLocked, Chain.pathFrom_none])
  | some n =>
    obtain ⟨length, each⟩ := indexed.path (vertex n rfl)
    unfold Chain.branchToLocked at found
    obtain ⟨inside, -⟩ := List.getElem?_eq_some_iff.mp found
    rw [List.length_reverse, List.length_map, length] at inside
    rw [List.getElem?_reverse (by rw [List.length_map, length]; exact inside), List.length_map,
      length, List.getElem?_map] at found
    obtain ⟨m, atPlace, body⟩ := Option.map_eq_some_iff.mp found
    obtain ⟨vertex', sum⟩ := each _ m atPlace
    obtain ⟨known, -, height⟩ := indexed.bodyForNode sound vertex' body
    exact ⟨known, by omega⟩

/-! ### Rebuilds -/

/-- The bodies of a branch that are at hand are known, and stand at their heights. -/
def Placed (heard : Block → Prop) (branch : List (Option Block)) : Prop :=
  ∀ (i : Nat) (b : Block), branch[i]? = some (some b) → heard b ∧ b.header.height = i

theorem connectFrom (indexed : Indexed V heard c) {blocks : List Block} (persist : Bool)
    (known : ∀ b ∈ blocks, heard b)
    (first : ∀ b, blocks.head? = some b → b.header.height = 0 → c.ledger.headers = [])
    (above : ∀ b ∈ blocks.tail, b.header.height ≠ 0) :
    Indexed V heard (stepUntil (Chain.connectBlock V parallel now persist) c blocks).2 := by
  cases blocks with
  | nil => exact indexed
  | cons b blocks =>
    have next := @connectBlock V heard c b parallel now indexed (known b List.mem_cons_self)
      (first b rfl) persist
    unfold stepUntil
    split
    · rename_i error c' outcome
      rwa [outcome] at next
    · rename_i c' outcome
      rw [outcome] at next
      exact next.connectAll (fun b member =>
        ⟨known b (List.mem_cons_of_mem _ member), above b member⟩) persist

theorem reduceOption_whole {α : Type} {values : List (Option α)}
    (whole : values.findIdx? (·.isNone) = none) : values.reduceOption.map some = values := by
  rw [List.findIdx?_eq_none_iff] at whole
  induction values with
  | nil => rfl
  | cons value values ih =>
    have rest := ih fun other member => whole other (List.mem_cons_of_mem _ member)
    cases value with
    | none => exact absurd (whole none List.mem_cons_self) (by simp)
    | some value => rw [List.reduceOption_cons_of_some, List.map_cons, rest]

/-- The index survives a rebuild to blocks that have been heard. -/
theorem rebuildToBranchLocked (indexed : Indexed V heard c) {branch : List (Option Block)}
    (placed : Placed heard branch) (forkHeight : Nat) :
    Indexed V heard (c.rebuildToBranchLocked V parallel now branch forkHeight).2 := by
  unfold Chain.rebuildToBranchLocked
  split
  · exact indexed
  · exact indexed
  rename_i last whole _
  have places : ∀ (i : Nat) (b : Block), branch.reduceOption[i]? = some b →
      heard b ∧ b.header.height = i := by
    intro i b found
    refine placed i b ?_
    rw [← reduceOption_whole whole, List.getElem?_map, found]
    rfl
  have known : ∀ b ∈ branch.reduceOption, heard b := by
    intro b member
    obtain ⟨i, found⟩ := List.mem_iff_getElem?.mp member
    exact (places i b found).1
  unfold Chain.rebuildStart
  dsimp only
  split
  · rename_i height restored found
    split_ifs at found
    have start := indexed.restoreSnapshotAtMostLocked found
    refine start.truncateStores.connectAll (fun b member => ?_) true
    obtain ⟨listed, above⟩ := List.mem_filter.mp member
    refine ⟨known b listed, ?_⟩
    have later : ¬ b.header.height ≤ height := by simpa using above
    omega
  · have all : (branch.reduceOption.filter fun b =>
        !(none : Option Nat).any (b.header.height ≤ ·)) = branch.reduceOption :=
      List.filter_eq_self.mpr fun b member => rfl
    rw [all]
    refine (indexed.resetState).truncateStores.connectFrom true known (fun _ _ _ => rfl) ?_
    intro b member
    obtain ⟨i, found⟩ := List.mem_iff_getElem?.mp member
    rw [List.getElem?_tail] at found
    have height := (places _ b found).2
    omega

theorem persistActiveChainLocked (indexed : Indexed V heard c) :
    Indexed V heard c.persistActiveChainLocked := by
  refine ⟨indexed.headers, indexed.nodes, indexed.blocks, fun height data lookup => ?_,
    indexed.snapshots, indexed.orphans⟩
  unfold Chain.persistActiveChainLocked at lookup
  dsimp only at lookup
  rw [OrdMap.lookup_eraseAll] at lookup
  split_ifs at lookup
  rcases OrdMap.lookup_insertAll_or _ lookup with member | before
  · obtain ⟨entry, listed, same⟩ := List.mem_map.mp member
    obtain ⟨rfl, rfl⟩ := Prod.mk.inj same
    obtain ⟨known, height⟩ :=
      indexed.blocks _ _ (Std.ExtTreeMap.mem_toList_iff_getElem?_eq_some.mp listed)
    exact ⟨entry.2, known, rfl, height⟩
  · exact indexed.stored height data before

/-- The index survives a reorganization. -/
theorem reorgToLocked (sound : Sound V heard) (indexed : Indexed V heard c)
    {branch : List (Option Block)} (placed : Placed heard branch) (forkHeight : Nat) :
    Indexed V heard (c.reorgToLocked V parallel now branch forkHeight).2 := by
  have forward := @rebuildToBranchLocked V heard c parallel now indexed branch placed forkHeight
  unfold Chain.reorgToLocked
  split
  · rename_i c' outcome
    rwa [outcome] at forward
  · rename_i error c' outcome
    rw [outcome] at forward
    have old : Placed heard (c'.branchToLocked V c'.nodes[c'.bestHash]?) := fun i b found =>
      forward.branchToLocked sound (fun m found => (forward.nodes _ m found).2) found
    have back := @rebuildToBranchLocked V heard c' parallel now forward _ old 0
    dsimp only
    split
    · rename_i again c'' outcome'
      rwa [outcome'] at back
    · rename_i c'' outcome'
      rw [outcome'] at back
      exact back.persistActiveChainLocked

/-! ### The tree and the orphan pool -/

/-- The index survives a new node of the tree. -/
theorem insertNode (indexed : Indexed V heard c) {node : ChainNode}
    (vertex : Vertex V heard c.nodes node) (new : c.nodes[node.hash]? = none) (best : Hash) :
    Indexed V heard { c with nodes := c.nodes.insert node.hash node, bestHash := best } := by
  have wider : ∀ n, Vertex V heard c.nodes n →
      Vertex V heard (c.nodes.insert node.hash node) n := by
    intro n vertex
    refine ⟨vertex.block, vertex.body, fun above => ?_⟩
    obtain ⟨p, parent, height⟩ := vertex.parent above
    refine ⟨p, ?_, height⟩
    rw [OrdMap.lookup_insert, if_neg, parent]
    rintro same
    rw [← same, new] at parent
    exact nomatch parent
  refine ⟨indexed.headers, fun id n lookup => ?_, indexed.blocks, indexed.stored,
    indexed.snapshots, indexed.orphans⟩
  rw [OrdMap.lookup_insert] at lookup
  split_ifs at lookup with same
  · obtain rfl := Option.some.inj lookup
    exact ⟨same, wider _ vertex⟩
  · obtain ⟨hash, old⟩ := indexed.nodes id n lookup
    exact ⟨hash, wider n old⟩

/-- The index survives bodies pruned from the tree. -/
theorem pruneNodeBodiesLocked (indexed : Indexed V heard c) :
    Indexed V heard (c.pruneNodeBodiesLocked V) := by
  have freed : ∀ n, (c.freeBody V n).hash = n.hash ∧ (c.freeBody V n).prev = n.prev ∧
      (c.freeBody V n).height = n.height ∧
      ∀ b, (c.freeBody V n).block = some b → n.block = some b := by
    intro n
    unfold Chain.freeBody
    dsimp only
    split_ifs
    · exact ⟨rfl, rfl, rfl, fun b found => found⟩
    · exact ⟨rfl, rfl, rfl, fun b found => nomatch found⟩
    · exact ⟨rfl, rfl, rfl, fun b found => found⟩
  unfold Chain.pruneNodeBodiesLocked
  split_ifs
  · exact indexed
  refine ⟨indexed.headers, fun id n lookup => ?_, indexed.blocks, indexed.stored,
    indexed.snapshots, indexed.orphans⟩
  rw [Std.ExtTreeMap.getElem?_map] at lookup
  obtain ⟨m, before, rfl⟩ := Option.map_eq_some_iff.mp lookup
  obtain ⟨hash, vertex⟩ := indexed.nodes id m before
  obtain ⟨sameHash, samePrev, sameHeight, body⟩ := freed m
  refine ⟨sameHash.trans hash, ⟨?_, fun b found => ?_, fun above => ?_⟩⟩
  · rw [sameHash, samePrev, sameHeight]
    exact vertex.block
  · rw [sameHash]
    exact vertex.body b (body b found)
  · rw [sameHeight] at above
    obtain ⟨p, parent, height⟩ := vertex.parent above
    refine ⟨c.freeBody V p, ?_, ?_⟩
    · rw [samePrev, Std.ExtTreeMap.getElem?_map, parent]
      rfl
    · rw [sameHeight, (freed p).2.2.1, height]

theorem settleTip (indexed : Indexed V heard c) {node : ChainNode}
    (vertex : Vertex V heard c.nodes node) (new : c.nodes[node.hash]? = none) :
    Indexed V heard (c.settleTip V node) := by
  have pruned := (indexed.insertNode vertex new node.hash).pruneNodeBodiesLocked
  unfold Chain.settleTip
  dsimp only
  split_ifs
  · exact pruned.saveSnapshotLocked
  · exact pruned

theorem withOrphans (indexed : Indexed V heard c) {orphans : GoMap (List Block)}
    (known : ∀ (parent : Hash) (children : List Block), orphans[parent]? = some children →
      ∀ b ∈ children, heard b) {entries : GoMap OrphanMeta} {queue : List Hash} {bytes : Int} :
    Indexed V heard { c with
      orphans := orphans
      orphanMeta := entries
      orphanFIFO := queue
      orphanBytes := bytes } :=
  ⟨indexed.headers, indexed.nodes, indexed.blocks, indexed.stored, indexed.snapshots, known⟩

theorem removeOrphanLocked (indexed : Indexed V heard c) (id : Hash) (entry : OrphanMeta) :
    Indexed V heard (c.removeOrphanLocked V id entry) := by
  refine indexed.withOrphans fun parent children lookup b member => ?_
  split_ifs at lookup
  · rw [OrdMap.lookup_erase] at lookup
    split_ifs at lookup
    exact indexed.orphans parent children lookup b member
  · rw [OrdMap.lookup_insert] at lookup
    split_ifs at lookup
    · obtain rfl := Option.some.inj lookup
      have listed := List.mem_of_mem_eraseP member
      cases before : c.orphans[entry.parent]? with
      | none => rw [before] at listed; exact absurd listed List.not_mem_nil
      | some siblings =>
        rw [before] at listed
        exact indexed.orphans _ _ before b listed
    · exact indexed.orphans parent children lookup b member

theorem evictOldestOrphanLocked (indexed : Indexed V heard c) {c' : Chain}
    (evicted : c.evictOldestOrphanLocked V = some c') : Indexed V heard c' := by
  unfold Chain.evictOldestOrphanLocked at evicted
  split at evicted
  · exact nomatch evicted
  · rename_i id queue _
    obtain ⟨entry, -, rfl⟩ := Option.map_eq_some_iff.mp evicted
    have shorter : Indexed V heard { c with orphanFIFO := queue } :=
      indexed.withOrphans indexed.orphans
    exact shorter.removeOrphanLocked id entry

theorem evictFor (indexed : Indexed V heard c) (size fuel : Nat) :
    Indexed V heard (Chain.evictFor V size fuel c).1 := by
  induction fuel generalizing c with
  | zero =>
    unfold Chain.evictFor
    split_ifs
    · exact indexed
    · exact indexed.withOrphans indexed.orphans
  | succ fuel ih =>
    unfold Chain.evictFor
    split_ifs
    · exact indexed
    · cases evicted : c.evictOldestOrphanLocked V with
      | none => exact indexed.withOrphans indexed.orphans
      | some c' => exact ih (indexed.evictOldestOrphanLocked evicted)

/-- The index survives an orphan that is buffered. -/
theorem bufferOrphanLocked (indexed : Indexed V heard c) {b : Block} (known : heard b) :
    Indexed V heard (c.bufferOrphanLocked V b) := by
  have room := indexed.evictFor b.serialize.length c.orphanFIFO.length
  unfold Chain.bufferOrphanLocked
  dsimp only
  split_ifs
  · exact indexed
  split
  · rename_i c' outcome
    rwa [outcome] at room
  · rename_i c' outcome
    rw [outcome] at room
    refine room.withOrphans fun parent children lookup child member => ?_
    rw [OrdMap.lookup_insert] at lookup
    split_ifs at lookup
    · obtain rfl := Option.some.inj lookup
      rcases List.mem_append.mp member with listed | own
      · cases before : c'.orphans[b.header.prevHash]? with
        | none => rw [before] at listed; exact absurd listed List.not_mem_nil
        | some siblings =>
          rw [before] at listed
          exact room.orphans _ _ before child listed
      · rwa [List.mem_singleton.mp own]
    · exact room.orphans parent children lookup child member

theorem releaseOrphan (indexed : Indexed V heard c) (child : Block) :
    Indexed V heard (c.releaseOrphan V child) := by
  unfold Chain.releaseOrphan
  split
  · exact indexed
  · exact indexed.withOrphans indexed.orphans

/-! ### Receiving a block -/

section Receive

variable {b : Block}

/-- The index survives a block on the tip. -/
theorem extendTip (indexed : Indexed V heard c) (known : heard b) {node : ChainNode}
    (vertex : Vertex V heard c.nodes node) (new : c.nodes[node.hash]? = none) :
    Indexed V heard (c.extendTip V parallel now b node).2 := by
  have validated := @validateBlockLocked V heard c b parallel now indexed
  have tree := @SameTree.validateBlockLocked V parallel now c b
  unfold Chain.extendTip
  split
  · rename_i error c' outcome
    rwa [outcome] at validated
  rename_i c' outcome
  have fits := @validated_fits V heard c b parallel now indexed (by rw [outcome])
  have ledger : (c.validateBlockLocked V parallel now b).2.ledger = c.ledger := rfl
  rw [outcome] at validated tree ledger
  have applied := validated.applyBlock known (by rw [ledger]; exact fits) true
  have tree' := tree.trans (@SameTree.applyBlock V c' true b)
  split
  · rename_i error c'' outcome'
    rwa [outcome'] at applied
  · rename_i c'' outcome'
    rw [outcome'] at applied tree'
    refine applied.settleTip ?_ ?_
    · rw [tree'.nodes]
      exact vertex
    · rw [tree'.nodes]
      exact new

/-- The index survives a switch to another branch. -/
theorem switchTo (sound : Sound V heard) (indexed : Indexed V heard c) {node : ChainNode}
    (vertex : Vertex V heard c.nodes node) (new : c.nodes[node.hash]? = none) (forkHeight : Nat) :
    Indexed V heard (c.switchTo V parallel now node forkHeight).2 := by
  have placed : Placed heard (c.branchToLocked V (some node)) := fun i b found =>
    indexed.branchToLocked sound (fun m same => Option.some.inj same ▸ vertex) found
  have switched := @reorgToLocked V heard c parallel now sound indexed _ placed forkHeight
  have tree := @SameTree.reorgToLocked V parallel now c (c.branchToLocked V (some node)) forkHeight
  unfold Chain.switchTo
  split
  · rename_i error c' outcome
    rwa [outcome] at switched
  · rename_i c' outcome
    rw [outcome] at switched tree
    have tree' := tree.trans (SameTree.persistActiveChainLocked c')
    refine switched.persistActiveChainLocked.settleTip ?_ ?_
    · rw [tree'.nodes]
      exact vertex
    · rw [tree'.nodes]
      exact new

theorem considerReorg (sound : Sound V heard) (indexed : Indexed V heard c)
    {node best : ChainNode} (vertex : Vertex V heard c.nodes node)
    (new : c.nodes[node.hash]? = none) (difficulty : Nat) :
    Indexed V heard (c.considerReorg V parallel now node best difficulty).2 := by
  unfold Chain.considerReorg
  dsimp only
  split_ifs
  · exact indexed
  · exact indexed.switchTo sound vertex new _
  · exact indexed.insertNode vertex new c.bestHash
  · exact indexed.switchTo sound vertex new _

/-- The index survives a block whose parent is known. -/
theorem addOne (sound : Sound V heard) (indexed : Indexed V heard c) (known : heard b) :
    Indexed V heard (c.addOne V parallel now b).2 := by
  unfold Chain.addOne
  dsimp only
  by_cases contained : c.nodes.contains (b.header.id V) = true
  · rw [if_pos contained]
    exact indexed
  rw [if_neg contained]
  have new : c.nodes[b.header.id V]? = none := by
    rw [Std.ExtTreeMap.contains_eq_isSome_getElem?, Bool.not_eq_true,
      Option.isSome_eq_false_iff, Option.isNone_iff_eq_none] at contained
    exact contained
  cases c.checkArrival V now b.header with
  | error error => exact indexed
  | ok result =>
    cases found : c.nodes[b.header.prevHash]? with
    | none => exact indexed.bufferOrphanLocked known
    | some parent =>
      dsimp only
      by_cases height : b.header.height ≠ parent.height + 1
      · rw [if_pos height]
        exact indexed
      rw [if_neg height]
      cases c.nodes[c.bestHash]? with
      | none => exact indexed
      | some best =>
        have vertex : Vertex V heard c.nodes ⟨b.header.id V, b.header.prevHash,
            b.header.height, parent.work + b.header.difficulty, some b⟩ := by
          refine ⟨⟨b, known, rfl, rfl, rfl⟩, fun own found => ?_, fun _ => ?_⟩
          · obtain rfl := Option.some.inj found
            exact ⟨known, rfl⟩
          · exact ⟨parent, found, not_not.mp height⟩
        dsimp only
        split_ifs
        · exact indexed.insertNode vertex new c.bestHash
        · exact indexed.extendTip known vertex new
        · exact indexed.considerReorg sound vertex new _

theorem takeOrphans (indexed : Indexed V heard c) (parent : Hash) :
    Indexed V heard (c.takeOrphans parent).2 ∧ ∀ b ∈ (c.takeOrphans parent).1, heard b := by
  constructor
  · refine indexed.withOrphans fun other children lookup b member => ?_
    rw [OrdMap.lookup_erase] at lookup
    split_ifs at lookup
    exact indexed.orphans other children lookup b member
  · intro b member
    unfold Chain.takeOrphans at member
    cases found : c.orphans[parent]? with
    | none => rw [found] at member; exact absurd member List.not_mem_nil
    | some children =>
      rw [found] at member
      exact indexed.orphans parent children found b member

/-- The index survives the orphans that a block connects. -/
theorem connectOrphansLocked (sound : Sound V heard) (fuel : Nat) (indexed : Indexed V heard c)
    {waiting : List Block} (known : ∀ b ∈ waiting, heard b) :
    Indexed V heard (c.connectOrphansLocked V parallel now fuel waiting).2 := by
  induction fuel generalizing c waiting with
  | zero => cases waiting <;> exact indexed
  | succ fuel ih =>
    cases waiting with
    | nil => exact indexed
    | cons child rest =>
      have added := @addOne V heard (c.releaseOrphan V child) parallel now child sound
        (indexed.releaseOrphan child) (known child List.mem_cons_self)
      have later : ∀ b ∈ rest, heard b := fun b member => known b (List.mem_cons_of_mem _ member)
      unfold Chain.connectOrphansLocked
      cases outcome : (c.releaseOrphan V child).addOne V parallel now child with
      | mk result c' =>
        rw [outcome] at added
        dsimp only
        cases stored : result.isStored with
        | false => exact ih added later
        | true =>
          obtain ⟨kept, taken⟩ := added.takeOrphans (child.header.id V)
          refine ih kept fun b member => ?_
          rcases List.mem_append.mp member with member | member
          · exact taken b member
          · exact later b member

theorem addBlockLocked (sound : Sound V heard) (indexed : Indexed V heard c) (known : heard b) :
    Indexed V heard (c.addBlockLocked V parallel now b).2 := by
  have added := @addOne V heard c parallel now b sound indexed known
  unfold Chain.addBlockLocked
  cases outcome : c.addOne V parallel now b with
  | mk result c' =>
    rw [outcome] at added
    dsimp only
    split_ifs
    · obtain ⟨kept, taken⟩ := added.takeOrphans (b.header.id V)
      exact kept.connectOrphansLocked sound _ taken
    · exact added

end Receive

/-! ### Opening a data directory -/

theorem closed (indexed : Indexed V heard c) : Indexed V heard (c.closed V) where
  headers := Linked.nil
  nodes := fun id n found => absurd found (by simp [Chain.closed])
  blocks := fun height b found => absurd found (by simp [Chain.closed])
  stored := indexed.stored
  snapshots := indexed.snapshots
  orphans := fun parent children found => absurd found (by simp [Chain.closed])

theorem blank : Indexed V heard (Chain.blank V) where
  headers := Linked.nil
  nodes := fun id n found => absurd found (by simp [Chain.blank])
  blocks := fun height b found => absurd found (by simp [Chain.blank])
  stored := fun height data found => absurd found (by simp [Chain.blank])
  snapshots := fun height s found => absurd found (by simp [Chain.blank])
  orphans := fun parent children found => absurd found (by simp [Chain.blank])

theorem replayStored (sound : Sound V heard) (indexed : Indexed V heard c) {b : Block}
    (known : heard b) (first : b.header.height = 0 → c.ledger.headers = []) (start : Nat) :
    Indexed V heard (c.replayStored V parallel now start b.serialize).2 := by
  unfold Chain.replayStored
  cases decoded : deserializeBlock b.serialize with
  | error message => exact indexed
  | ok read =>
    obtain rfl := deserializeBlock_faithful (sound.typed b known) decoded
    dsimp only
    split_ifs with skipped zero
    · exact indexed
    · refine indexed.applyBlock known ⟨?_, fun tip found => ?_⟩ false
      · rw [first zero, zero]
        rfl
      · rw [first zero] at found
        exact absurd found (by simp)
    · have kept : Indexed V heard (c.validateBlockLocked V parallel now read).2 :=
        indexed.validateBlockLocked
      cases outcome : c.validateBlockLocked V parallel now read with
      | mk verdict c' =>
        rw [outcome] at kept
        cases verdict with
        | error error => exact kept
        | ok result =>
          have fits := indexed.validated_fits (by rw [outcome])
          have same : c'.ledger = c.ledger := by
            have ledger : (c.validateBlockLocked V parallel now read).2.ledger = c.ledger :=
              rfl
            rwa [outcome] at ledger
          exact kept.applyBlock known (by rw [same]; exact fits) false

theorem replayStart (indexed : Indexed V heard c) :
    Indexed V heard (c.replayStart V).2 ∧
      ((c.replayStart V).1 = 0 → (c.replayStart V).2.ledger.headers = []) := by
  rcases c.replayStart_cases V with ⟨height, restored, found, -, same⟩ | same | ⟨_, _, found, same⟩
  · rw [same]
    exact ⟨indexed.restoreSnapshotAtMostLocked found, fun zero => absurd zero (by simp)⟩
  · rw [same]
    exact ⟨indexed.resetState, fun _ => rfl⟩
  · rw [same]
    exact ⟨(indexed.restoreSnapshotAtMostLocked found).resetState, fun _ => rfl⟩

/-- The index holds after a replay. -/
theorem replay (sound : Sound V heard) (indexed : Indexed V heard c) :
    Indexed V heard (c.replay V parallel now).2 := by
  obtain ⟨start, empty⟩ := indexed.replayStart
  unfold Chain.replay
  cases outcome : c.replayStart V with
  | mk low c' =>
    rw [outcome] at start empty
    dsimp only at start empty ⊢
    have known : ∀ entry ∈ c'.stored.toList.filter fun entry => low ≤ entry.1,
        low ≤ entry.1 ∧ ∃ b, heard b ∧ entry.2 = b.serialize ∧ b.header.height = entry.1 := by
      intro entry member
      obtain ⟨listed, above⟩ := List.mem_filter.mp member
      exact ⟨by simpa using above,
        start.stored _ _ (Std.ExtTreeMap.mem_toList_iff_getElem?_eq_some.mp listed)⟩
    have ordered : (c'.stored.toList.filter fun entry => low ≤ entry.1).Pairwise
        fun first second => first.1 < second.1 := by
      refine List.Pairwise.filter _ (Std.ExtTreeMap.ordered_keys_toList.imp fun before => ?_)
      exact Nat.compare_eq_lt.mp before
    generalize c'.stored.toList.filter (fun entry => low ≤ entry.1) = entries at known ordered
    -- all but the first body are above genesis
    have later : ∀ (c : Chain), Indexed V heard c → ∀ entries : List (Nat × Bytes),
        (∀ entry ∈ entries, 0 < entry.1 ∧
          ∃ b, heard b ∧ entry.2 = b.serialize ∧ b.header.height = entry.1) →
        Indexed V heard (stepUntil (Chain.replayStored V parallel now low) c
          (entries.map Prod.snd)).2 := by
      intro c indexed entries known
      refine stepUntil_invariant (Indexed V heard) (fun c data member indexed => ?_) indexed
      obtain ⟨entry, listed, rfl⟩ := List.mem_map.mp member
      obtain ⟨above, b, heard, code, height⟩ := known entry listed
      rw [code]
      exact indexed.replayStored sound heard (fun zero => by omega) low
    cases entries with
    | nil => exact start.truncateStores
    | cons entry entries =>
      obtain ⟨above, b, heardB, code, height⟩ := known entry List.mem_cons_self
      have next := @replayStored V heard c'.truncateStores parallel now sound
        start.truncateStores b heardB (fun zero => empty (by omega)) low
      rw [← code] at next
      rw [List.pairwise_cons] at ordered
      rw [List.map_cons]
      unfold stepUntil
      split
      · rename_i error c'' outcome
        rwa [outcome] at next
      · rename_i c'' outcome
        rw [outcome] at next
        refine later c'' next entries fun other member => ?_
        have after := ordered.1 other member
        exact ⟨by omega, (known other (List.mem_cons_of_mem _ member)).2⟩

end Indexed

theorem genesisBlock_reset (L : Ledger) :
    genesisBlock V (L.resetState V).truncateStores = genesis V := by
  have residual : (L.resetState V).truncateStores.residual = (Ledger.empty V).residual := rfl
  unfold genesis genesisBlock Ledger.stateRoot
  rw [residual]
  rfl

namespace Chain

variable {c : Chain} {parallel : Bool} {now : Int}

theorem cacheBlock_ledger (c : Chain) (b : Block) : (c.cacheBlock b).ledger = c.ledger := by
  unfold cacheBlock
  dsimp only
  split_ifs
  · rfl
  · split <;> rfl

theorem applyBlock_headers {persist : Bool} {b : Block} {result : Option String} {c' : Chain}
    (ran : c.applyBlock V persist b = (result, c')) :
    c'.ledger.headers =
      if result.isNone then c.ledger.headers ++ [b.header] else c.ledger.headers := by
  obtain ⟨written, -, cases⟩ := c.applyBlock_cases V persist b
  rcases cases with ⟨refused, -⟩ | ⟨result', L, ranLedger, applied⟩
  · obtain ⟨rfl, rfl⟩ := Prod.mk.inj (ran.symm.trans refused)
    rfl
  · obtain ⟨rfl, rfl⟩ := Prod.mk.inj (ran.symm.trans applied)
    have headers := Obscura.applyBlock_headers ranLedger
    split_ifs at headers ⊢
    · rw [cacheBlock_ledger]
      exact headers
    · exact headers

/-- A replayed body that is not skipped makes the chain longer. -/
theorem replayStored_headers (start : Nat) (data : Bytes) :
    (c.replayStored V parallel now start data).2.ledger.headers = c.ledger.headers ∧
        ((c.replayStored V parallel now start data).1 = none → start ≠ 0) ∨
      ∃ h, (c.replayStored V parallel now start data).2.ledger.headers = c.ledger.headers ++ [h] := by
  unfold replayStored
  split
  · exact Or.inl ⟨rfl, fun none => nomatch none⟩
  rename_i b _
  by_cases skipped : b.header.height < start
  · rw [if_pos skipped]
    exact Or.inl ⟨rfl, fun _ => by omega⟩
  rw [if_neg skipped]
  generalize outcome : (if b.header.height = 0 then (Except.ok (), c)
    else c.validateBlockLocked V parallel now b) = verdict
  have ledger : verdict.2.ledger = c.ledger := by
    rw [← outcome]
    split_ifs <;> rfl
  obtain ⟨verdict, c'⟩ := verdict
  cases verdict with
  | error error => exact Or.inl ⟨congrArg Ledger.headers ledger, fun none => nomatch none⟩
  | ok result =>
    dsimp only at ledger ⊢
    cases ran : c'.applyBlock V false b with
    | mk applied c'' =>
      have headers := applyBlock_headers ran
      rw [ledger] at headers
      cases applied with
      | none => exact Or.inr ⟨_, headers⟩
      | some error => exact Or.inl ⟨headers, fun none => nomatch none⟩

/-- A directory that is opened to an empty chain was empty. -/
theorem replay_empty {disk : Chain} (opened : disk.replay V parallel now = (none, c))
    (empty : c.ledger.headers = []) : genesisBlock V c.ledger = genesis V := by
  have grows : ∀ (low : Nat) (start : Chain) (bodies : List Bytes), start.ledger.headers ≠ [] →
      (stepUntil (replayStored V parallel now low) start bodies).2.ledger.headers ≠ [] := by
    intro low start bodies started
    refine stepUntil_invariant (fun c : Chain => c.ledger.headers ≠ []) (fun c data _ some => ?_)
      started
    rcases @replayStored_headers V c parallel now low data with ⟨same, -⟩ | ⟨h, longer⟩
    · rw [same]
      exact some
    · rw [longer]
      simp
  have fromStart : ∀ (start : Chain) (bodies : List Bytes),
      stepUntil (replayStored V parallel now 0) start bodies = (none, c) → c = start := by
    intro start bodies ran
    cases bodies with
    | nil => exact (Prod.mk.inj ran).2.symm
    | cons data bodies =>
      unfold stepUntil at ran
      split at ran
      · exact nomatch (Prod.mk.inj ran).1
      · rename_i next outcome
        have first := @replayStored_headers V start parallel now 0 data
        rw [outcome] at first
        rcases first with ⟨-, impossible⟩ | ⟨h, longer⟩
        · exact absurd rfl (impossible rfl)
        · have later := grows 0 next bodies (by rw [longer]; simp)
          rw [ran] at later
          exact absurd empty later
  unfold replay at opened
  have reset : ∀ start : Chain, disk.replayStart V = (0, start.resetState V) →
      genesisBlock V c.ledger = genesis V := by
    intro start same
    rw [same] at opened
    rw [fromStart _ _ opened]
    exact genesisBlock_reset _
  rcases disk.replayStart_cases V with ⟨height, restored, -, fits, same⟩ | same | ⟨_, _, -, same⟩
  · have started : restored.truncateStores.ledger.headers ≠ [] := by
      intro none
      change restored.ledger.headers = [] at none
      rw [Ledger.verifySnapshotLocked, Ledger.tip?, none] at fits
      exact absurd fits (by simp)
    rw [same] at opened
    have later := grows (height + 1) restored.truncateStores
      ((restored.stored.toList.filter fun entry => height + 1 ≤ entry.1).map Prod.snd) started
    dsimp only at opened
    rw [opened] at later
    exact absurd empty later
  · exact reset _ same
  · exact reset _ same

/-- What the index of a chain holds: a vertex for each header. -/
structure Lists (V : Primitives) (c : Chain) (headers : List Header) (nodes : GoMap ChainNode) :
    Prop where
  found : ∀ (id : Hash) (n : ChainNode), nodes[id]? = some n →
    ∃ h, headers[n.height]? = some h ∧ h.id V = id ∧
      n = ⟨id, h.prevHash, n.height, ((headers.take (n.height + 1)).map Header.difficulty).sum, none⟩
  all : ∀ h ∈ headers, ∃ n, nodes[h.id V]? = some n

/-- The index of a longer chain. -/
theorem Lists.next {headers : List Header} {nodes : GoMap ChainNode}
    (lists : Lists V c headers nodes) (h : Header) :
    Lists V c (headers ++ [h]) (nodes.insert (h.id V)
      ⟨h.id V, h.prevHash, headers.length, (headers.map Header.difficulty).sum + h.difficulty,
        none⟩) := by
  constructor
  case found =>
    intro id n lookup
    rw [OrdMap.lookup_insert] at lookup
    split_ifs at lookup with same
    · obtain rfl := Option.some.inj lookup
      refine ⟨h, by simp, same, ?_⟩
      rw [← same]
      simp
    · obtain ⟨old, place, id, shape⟩ := lists.found id n lookup
      obtain ⟨inside, -⟩ := List.getElem?_eq_some_iff.mp place
      refine ⟨old, by rw [List.getElem?_append_left inside]; exact place, id, ?_⟩
      rwa [List.take_append_of_le_length (by omega)]
  case all =>
    intro other member
    by_cases same : h.id V = other.id V
    · exact ⟨_, by rw [OrdMap.lookup_insert, if_pos same]⟩
    · rcases List.mem_append.mp member with member | member
      · obtain ⟨n, found⟩ := lists.all other member
        exact ⟨n, by rw [OrdMap.lookup_insert, if_neg same, found]⟩
      · rw [List.mem_singleton.mp member] at same
        exact absurd rfl same

/-- Indexing the headers that are left. -/
theorem indexHeaders (rest : List Header) {front : List Header} {state : Chain}
    (lists : Lists V c front state.nodes) :
    ∃ nodes best, (rest.zipIdx front.length).foldl (indexHeader V)
        ((front.map Header.difficulty).sum, state) =
      (((front ++ rest).map Header.difficulty).sum, { state with nodes := nodes, bestHash := best }) ∧
      Lists V c (front ++ rest) nodes ∧
      best = (rest.getLast?.map fun h => h.id V).getD state.bestHash := by
  induction rest generalizing front state with
  | nil => exact ⟨state.nodes, state.bestHash, by rw [List.append_nil]; rfl,
      by rw [List.append_nil]; exact lists, rfl⟩
  | cons h rest ih =>
    obtain ⟨nodes, best, folded, lists', last⟩ := @ih (front ++ [h]) { state with
      nodes := state.nodes.insert (h.id V) ⟨h.id V, h.prevHash, front.length,
        (front.map Header.difficulty).sum + h.difficulty, none⟩
      bestHash := h.id V } (lists.next h)
    refine ⟨nodes, best, ?_, by rw [List.append_cons]; exact lists', ?_⟩
    · rw [List.append_cons, ← folded, List.zipIdx_cons, List.foldl_cons, List.length_append,
        List.length_singleton, List.map_append, List.sum_append, List.map_singleton,
        List.sum_singleton]
      rfl
    · rw [last, List.getLast?_cons]
      cases rest.getLast? <;> rfl

/-- The index of the active chain. -/
theorem indexActiveChain_lists (c : Chain) :
    ∃ nodes best, c.indexActiveChain V = { c with nodes := nodes, bestHash := best } ∧
      Lists V c c.ledger.headers nodes ∧
      best = (c.ledger.tip?.map fun h => h.id V).getD c.bestHash := by
  have start : Lists V c [] ({ c with nodes := ∅ } : Chain).nodes :=
    ⟨fun id n found => absurd found (by simp), fun h member => absurd member List.not_mem_nil⟩
  obtain ⟨nodes, best, folded, lists, last⟩ := indexHeaders c.ledger.headers start
  refine ⟨nodes, best, ?_, lists, last⟩
  unfold indexActiveChain
  rw [List.nil_append] at folded
  exact congrArg Prod.snd folded

end Chain

namespace Indexed

variable {c : Chain} {parallel : Bool} {now : Int}

/-- The index holds once the active chain is listed. -/
theorem indexActiveChain (sound : Sound V heard) (indexed : Indexed V heard c) :
    Indexed V heard (c.indexActiveChain V) := by
  obtain ⟨nodes, best, same, lists, -⟩ := c.indexActiveChain_lists (V := V)
  rw [same]
  refine ⟨indexed.headers, fun id n lookup => ?_, indexed.blocks, indexed.stored,
    indexed.snapshots, indexed.orphans⟩
  obtain ⟨h, place, hash, shape⟩ := lists.found id n lookup
  obtain ⟨b, known, header⟩ := indexed.headers.known h (List.mem_of_getElem? place)
  have height := indexed.headers.heights _ _ place
  refine ⟨by rw [shape], ⟨b, known, ?_, ?_, ?_⟩, fun own found => ?_, fun above => ?_⟩
  · rw [header, hash, shape]
  · rw [header, shape]
  · rw [header, height]
  · rw [shape] at found
    exact nomatch found
  · obtain ⟨inside, -⟩ := List.getElem?_eq_some_iff.mp place
    obtain ⟨below, belowFound⟩ : ∃ below, c.ledger.headers[n.height - 1]? = some below :=
      ⟨_, List.getElem?_eq_getElem (by omega)⟩
    have link := indexed.headers.links (n.height - 1) below h belowFound
      (by rw [show n.height - 1 + 1 = n.height by omega]; exact place)
    obtain ⟨p, parent⟩ := lists.all below (List.mem_of_getElem? belowFound)
    refine ⟨p, ?_, ?_⟩
    · rw [shape]
      dsimp only
      rw [link]
      exact parent
    · obtain ⟨h', place', hash', -⟩ := lists.found _ p parent
      obtain ⟨b', known', header'⟩ := indexed.headers.known h' (List.mem_of_getElem? place')
      obtain ⟨b'', known'', header''⟩ :=
        indexed.headers.known below (List.mem_of_getElem? belowFound)
      have equal := sound.apart b' known' b'' known'' (by rw [header', header'', hash'])
      have heightP := indexed.headers.heights _ _ place'
      have heightBelow := indexed.headers.heights _ _ belowFound
      rw [← header', equal, header''] at heightP
      omega

/-- Opening a directory. -/
theorem new (sound : Sound V heard) (genesisKnown : heard (genesis V))
    {disk : Chain} (indexed : Indexed V heard disk)
    (opened : Chain.new V parallel now disk = .ok c) : Indexed V heard c := by
  have replayed := @replay V heard disk parallel now sound indexed
  unfold Chain.new at opened
  split at opened
  · exact nomatch opened
  rename_i c' outcome
  rw [outcome] at replayed
  dsimp only at replayed
  split_ifs at opened with empty
  · have first := Chain.replay_empty outcome empty
    rw [first] at opened
    have applied := replayed.applyBlock genesisKnown (b := genesis V)
      ⟨by rw [empty]; rfl, fun tip found => by rw [empty] at found; exact absurd found (by simp)⟩
      true
    split at opened
    · exact nomatch opened
    · rename_i c'' outcome'
      rw [outcome'] at applied
      obtain rfl := Except.ok.inj opened
      exact applied.indexActiveChain sound
  · obtain rfl := Except.ok.inj opened
    exact replayed.indexActiveChain sound

/-- The index holds when more has been heard. -/
theorem mono {more : Block → Prop} (wider : ∀ b, heard b → more b) (indexed : Indexed V heard c) :
    Indexed V more c where
  headers := indexed.headers.mono wider
  nodes := by
    intro id n found
    obtain ⟨hash, vertex⟩ := indexed.nodes id n found
    obtain ⟨b, known, same⟩ := vertex.block
    exact ⟨hash, ⟨b, wider b known, same⟩,
      fun b found => ⟨wider b (vertex.body b found).1, (vertex.body b found).2⟩, vertex.parent⟩
  blocks := fun height b found =>
    ⟨wider b (indexed.blocks height b found).1, (indexed.blocks height b found).2⟩
  stored := by
    intro height data found
    obtain ⟨b, known, same⟩ := indexed.stored height data found
    exact ⟨b, wider b known, same⟩
  snapshots := fun height s found => (indexed.snapshots height s found).mono wider
  orphans := fun parent children found b member => wider b (indexed.orphans parent children found b member)

end Indexed

theorem Reachable.indexed {seen : List Block} {c : Chain} (run : Reachable V seen c)
    (sound : Sound V (Heard V seen)) : Indexed V (Heard V seen) c := by
  induction run with
  | create opened => exact Indexed.blank.new sound (Or.inl rfl) opened
  | addBlock parallel now b run ih =>
    rename_i seen c
    have older : ∀ other, Heard V seen other → Heard V (b :: seen) other := fun other known =>
      known.imp id fun member => List.mem_cons_of_mem _ member
    have before : Sound V (Heard V seen) := ⟨fun other known => sound.typed other (older other known),
      fun one first two second => sound.apart one (older one first) two (older two second)⟩
    exact ((ih before).mono older).addBlockLocked sound (Or.inr List.mem_cons_self)
  | saveSnapshot run ih => exact (ih sound).saveSnapshotLocked
  | checkTx t run ih =>
    have kept := ih sound
    exact ⟨kept.headers, kept.nodes, kept.blocks, kept.stored, kept.snapshots, kept.orphans⟩
  | reopen run opened ih => exact (ih sound).closed.new sound (Or.inl rfl) opened

end Obscura
