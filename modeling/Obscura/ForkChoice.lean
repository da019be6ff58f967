import Obscura.Decode
import Obscura.ForkRule
import Obscura.ProofCache
import Obscura.Snapshot

/-! # The node

A full node: the consensus state of its active chain, the tree of all blocks it knows with
the bodies it holds in memory, the buffered orphans, and what is on disk. `addBlockLocked`
is the entry point for a received block; a branch that becomes the best one replaces the
active chain by a rebuild (`rebuildToBranchLocked`) from a snapshot or from genesis. The
clock is an argument of every call. A `PutBlock` into the `blocks` bucket stores the
serialized block, and a body that is no longer in memory is decoded from there.
-/

namespace Obscura

open Wire Tx Checked

namespace Config

/-- The orphans that are buffered at most. -/
def maxOrphans : Nat := 256

/-- The bytes that they may take. -/
def maxOrphanBytes : Nat := 32 * 2 ^ 20

/-- The blocks between two snapshots. -/
def snapshotInterval : Nat := 200

/-- The bodies that stay in memory. -/
def blockCacheCap : Nat := 300

end Config

/-- A vertex of the block tree; `work` is cumulative from genesis. -/
structure ChainNode where
  hash : Hash
  prev : Hash
  height : Nat
  work : Nat
  block : Option Block

/-- An orphan's parent and size, as they were recorded. -/
structure OrphanMeta where
  parent : Hash
  bytes : Nat

/-- The state of a full node. `blocks` is the cache of recent bodies; `stored` and
`snapshots` are the buckets of serialized blocks and of snapshots. -/
structure Chain where
  ledger : Ledger
  blocks : IndexMap Block := ∅
  nodes : GoMap ChainNode := ∅
  orphans : GoMap (List Block) := ∅
  orphanMeta : GoMap OrphanMeta := ∅
  orphanFIFO : List Hash := []
  orphanBytes : Int := 0
  bestHash : Hash := zeroHash
  verifiedProofs : ProofCache := ∅
  stored : IndexMap Bytes := ∅
  snapshots : IndexMap Snapshot := ∅

/-- What became of a block handed to `addBlockLocked`. -/
inductive Outcome where
  | known
  | rejected (error : String)
  | orphan
  | side
  | extended
  | reorged
  | reorgFailed (error : String)
deriving DecidableEq

namespace Outcome

/-- The result the caller sees. -/
def result : Outcome → Check Unit
  | known | side | extended | reorged => .ok ()
  | rejected error => .error error
  | orphan => .error (invalid "orphan (parent unknown)")
  | reorgFailed error => .error s!"reorg failed: {error}"

/-- Whether the block is now in the tree, so that its orphans are looked up. -/
def isStored : Outcome → Bool
  | side | extended | reorged => true
  | _ => false

end Outcome

namespace Chain

variable (V : Primitives)

/-! ## Bodies -/

/-- A body read from the `blocks` bucket. -/
def loadBlockBolt (c : Chain) (height : Nat) : Option Block :=
  c.stored[height]?.bind fun data => (deserializeBlock data).toOption

/-- The body of the active block at a height: from memory, else from the bucket. -/
def bodyAtHeight (c : Chain) (height : Nat) : Option Block :=
  c.blocks[height]?.or (c.loadBlockBolt height)

/-- The body of a vertex: its own, else the one at its height when it is the same block. -/
def bodyForNode (c : Chain) (n : ChainNode) : Option Block :=
  n.block.or ((c.bodyAtHeight n.height).filter fun b => b.header.id V = n.hash)

/-- Keep a body in memory; over capacity the lowest one goes. -/
def cacheBlock (c : Chain) (b : Block) : Chain :=
  let blocks := c.blocks.insert b.header.height b
  if blocks.size ≤ Config.blockCacheCap then
    { c with blocks }
  else
    match blocks.minKey? with
    | some low => { c with blocks := blocks.erase low }
    | none => { c with blocks }

/-- Write a body to the bucket. -/
def persistBlock (c : Chain) (b : Block) : Chain :=
  { c with stored := c.stored.insert b.header.height b.serialize }

/-- Store the body, then apply the block. -/
def applyBlock (persist : Bool) (c : Chain) (b : Block) : Option String × Chain :=
  match b.txs.head? with
  | none => (some errValidation, c)
  | some cb =>
    if !cb.isCoinbase then
      (some errValidation, c)
    else
      let c := if persist then c.persistBlock b else c
      match Obscura.applyBlock V c.ledger b with
      | (some error, L) => (some error, { c with ledger := L })
      | (none, L) => (none, { c with ledger := L }.cacheBlock b)

/-- What applying a block can do: nothing, when the block has no coinbase; else the body is
written, the state is the one `applyBlock` reached, and on success the body is cached. -/
theorem applyBlock_cases (persist : Bool) (c : Chain) (b : Block) :
    ∃ written, (written = if persist = true then c.persistBlock b else c) ∧
      ((c.applyBlock V persist b = (some errValidation, c) ∧
          Obscura.applyBlock V c.ledger b = (some errValidation, c.ledger)) ∨
        ∃ result L, Obscura.applyBlock V c.ledger b = (result, L) ∧
          c.applyBlock V persist b =
            (result, if result.isNone then { written with ledger := L }.cacheBlock b
              else { written with ledger := L })) := by
  refine ⟨_, rfl, ?_⟩
  generalize same : (if persist = true then c.persistBlock b else c) = written
  have ledger : written.ledger = c.ledger := by
    rw [← same]
    split_ifs <;> rfl
  have unfolded : c.applyBlock V persist b = match b.txs.head? with
      | none => (some errValidation, c)
      | some cb =>
        if !cb.isCoinbase then (some errValidation, c)
        else match Obscura.applyBlock V written.ledger b with
          | (some error, L) => (some error, { written with ledger := L })
          | (none, L) => (none, { written with ledger := L }.cacheBlock b) := by
    rw [← same]
    rfl
  rw [unfolded, ledger]
  cases head : b.txs.head? with
  | none => exact Or.inl ⟨rfl, by rw [Obscura.applyBlock, head]⟩
  | some cb =>
    dsimp only
    by_cases plain : (!cb.isCoinbase) = true
    · rw [if_pos plain]
      refine Or.inl ⟨rfl, ?_⟩
      rw [Obscura.applyBlock, head]
      exact if_pos plain
    rw [if_neg plain]
    cases ran : Obscura.applyBlock V c.ledger b with
    | mk result L =>
      cases result with
      | none => exact Or.inr ⟨none, L, rfl, rfl⟩
      | some error => exact Or.inr ⟨some error, L, rfl, rfl⟩

section Locked

variable (parallel : Bool) (now : Int)

/-- `validateBlockLocked` on the active chain. -/
def validateBlockLocked (c : Chain) (b : Block) : Check Unit × Chain :=
  let (verdict, cache) := validateBlockCached V c.ledger parallel now c.verifiedProofs b
  (verdict, { c with verifiedProofs := cache })

/-- Validate a block and apply it; the genesis block is the trust root. -/
def connectBlock (persist : Bool) (c : Chain) (b : Block) : Option String × Chain :=
  if b.header.height = 0 then
    c.applyBlock V persist b
  else
    match c.validateBlockLocked V parallel now b with
    | (.error error, c) => (some error, c)
    | (.ok (), c) => c.applyBlock V persist b

end Locked

/-! ## Snapshots -/

/-- Enough snapshots to rewind as far as the proof-of-work seed reaches. -/
def snapshotsToKeep : Nat :=
  max 2 ((Config.powSeedLag + Config.snapshotInterval - 1) / Config.snapshotInterval + 1)

/-- Delete the stored bodies below a height. -/
def pruneBodies (c : Chain) (below : Nat) : Chain :=
  { c with stored := OrdMap.eraseAll c.stored (c.stored.keys.filter (· < below)) }

/-- Store a snapshot of the tip, drop the oldest ones, and prune the bodies below both the
oldest snapshot that is kept and the retrievability window. -/
def saveSnapshotLocked (c : Chain) : Chain :=
  let tip := c.ledger.tipHeight
  let snapshots := c.snapshots.insert tip c.ledger.encodeSnapshotLocked
  let heights := snapshots.keys
  let dropped := heights.length - snapshotsToKeep
  let saved := { c with snapshots := OrdMap.eraseAll snapshots (heights.take dropped) }
  if heights.length ≤ snapshotsToKeep then
    saved
  else
    saved.pruneBodies (min ((heights[dropped]?).getD 0) (tip - Config.porWindow))

/-- Restore the highest snapshot at or below a height. -/
def restoreSnapshotAtMostLocked (c : Chain) (most : Nat) : Option (Nat × Chain) :=
  ((c.snapshots.toList.filter fun entry => entry.1 ≤ most).getLast?).map fun entry =>
    (entry.1, { c with ledger := c.ledger.restoreSnapshotLocked entry.2, blocks := ∅ })

/-- A chain before replay: its state is empty and no body is loaded. -/
def resetState (c : Chain) : Chain :=
  { c with ledger := c.ledger.resetState V, blocks := ∅ }

/-- Reconcile the disk-backed stores with the counts in memory. -/
def truncateStores (c : Chain) : Chain :=
  { c with ledger := c.ledger.truncateStores }

/-! ## The block tree -/

/-- A vertex and its ancestors, newest first. -/
def ancestors (c : Chain) : (fuel : Nat) → Option ChainNode → List ChainNode
  | _, none => []
  | 0, _ => []
  | fuel + 1, some n => n :: if n.height = 0 then [] else ancestors c fuel c.nodes[n.prev]?

/-- The path from a vertex down to genesis; a step down lowers the height by one. -/
def pathFrom (c : Chain) (n : Option ChainNode) : List ChainNode :=
  c.ancestors ((n.map ChainNode.height).getD 0 + 1) n

/-- The bodies from genesis to a vertex, where they are at hand. -/
def branchToLocked (c : Chain) (n : Option ChainNode) : List (Option Block) :=
  ((c.pathFrom n).map (c.bodyForNode V)).reverse

/-- How many active blocks a switch to the branch rolls back, and the fork height. -/
def reorgForkLocked (c : Chain) (n : ChainNode) : Nat × Nat :=
  let branch := (c.pathFrom (some n)).map ChainNode.hash
  let best := c.nodes[c.bestHash]?
  let top := (best.map ChainNode.height).getD 0
  match (c.pathFrom best).find? fun a => a.hash ∈ branch with
  | some a => (top - a.height, a.height)
  | none => (top, 0)

/-- Whether the active block at the height of a vertex is the vertex's own. -/
def onActive (c : Chain) (n : ChainNode) : Bool :=
  c.ledger.headers[n.height]?.any fun header => header.id V = n.hash

/-- Free the body of an old vertex: of an active block below the reorg window, and of a side
branch below the recovery window. -/
def freeBody (c : Chain) (n : ChainNode) : ChainNode :=
  let tip := c.ledger.tipHeight
  let recoveryWindow := max Config.powSeedLag Config.maxReorgDepth
  if tip - Config.maxReorgDepth < n.height then
    n
  else if c.onActive V n ∨ recoveryWindow ≤ tip ∧ n.height ≤ tip - recoveryWindow then
    { n with block := none }
  else
    n

/-- Bodies below the reorganization limit leave memory. -/
def pruneNodeBodiesLocked (c : Chain) : Chain :=
  if c.ledger.tipHeight < Config.maxReorgDepth then c
  else { c with nodes := c.nodes.map fun _ n => c.freeBody V n }

/-- Write the cached bodies to the bucket and delete those above the tip. -/
def persistActiveChainLocked (c : Chain) : Chain :=
  let stored := OrdMap.insertAll c.stored
    (c.blocks.toList.map fun entry => (entry.1, entry.2.serialize))
  let stale := stored.keys.filter (c.ledger.tipHeight < ·)
  { c with stored := OrdMap.eraseAll stored stale }

/-- Where a rebuild starts: from a snapshot at or below the fork, with its height, or from the
empty state. -/
def rebuildStart (c : Chain) (tip forkHeight : Nat) : Option Nat × Chain :=
  match if Config.maxReorgDepth ≤ tip then
      c.restoreSnapshotAtMostLocked (min (tip - Config.maxReorgDepth) forkHeight)
    else none with
  | some (height, c) => (some height, c)
  | none => (none, c.resetState V)

section Locked

variable (parallel : Bool) (now : Int)

/-- Restore a snapshot below the fork, or reset, and replay the branch from there. -/
def rebuildToBranchLocked (c : Chain) (branch : List (Option Block)) (forkHeight : Nat) :
    Option String × Chain :=
  match branch.findIdx? (·.isNone), branch.reduceOption.getLast? with
  | some i, _ =>
    (some (invalid s!"missing block body at branch index {i} (pruned) — cannot rebuild"), c)
  | none, none => (some (invalid "empty branch"), c)
  | none, some last =>
    let (startH, start) := c.rebuildStart V last.header.height forkHeight
    let rest := branch.reduceOption.filter fun b => !startH.any (b.header.height ≤ ·)
    stepUntil (connectBlock V parallel now true) start.truncateStores rest

/-- Switch to a branch; when that fails, rebuild the previous one. -/
def reorgToLocked (c : Chain) (branch : List (Option Block)) (forkHeight : Nat) :
    Option String × Chain :=
  match c.rebuildToBranchLocked V parallel now branch forkHeight with
  | (none, c) => (none, c)
  | (some error, c) =>
    let oldBranch := c.branchToLocked V c.nodes[c.bestHash]?
    match c.rebuildToBranchLocked V parallel now oldBranch 0 with
    | (some again, c) =>
      (some (invalid s!"reorg failed ({error}) AND recovery failed ({again})"), c)
    | (none, c) => (some error, c.persistActiveChainLocked)

end Locked

/-! ## Orphans -/

/-- Drop a buffered orphan. -/
def removeOrphanLocked (c : Chain) (id : Hash) (entry : OrphanMeta) : Chain :=
  let siblings := (c.orphans[entry.parent]?.getD []).eraseP fun b => b.header.id V = id
  { c with
    orphans :=
      if siblings = [] then c.orphans.erase entry.parent
      else c.orphans.insert entry.parent siblings
    orphanMeta := c.orphanMeta.erase id
    orphanBytes := c.orphanBytes - entry.bytes }

/-- Drop the oldest orphan that is still buffered. -/
def evictOldestOrphanLocked (c : Chain) : Option Chain :=
  match c.orphanFIFO.dropWhile fun id => !c.orphanMeta.contains id with
  | [] => none
  | id :: queue => c.orphanMeta[id]?.map fun entry =>
    { c with orphanFIFO := queue }.removeOrphanLocked V id entry

/-- Evict until a body of the given size fits; none is left when it cannot. Each round
shortens the queue. -/
def evictFor (size : Nat) : (fuel : Nat) → Chain → Chain × Bool
  | fuel, c =>
    if c.orphanMeta.size < Config.maxOrphans ∧
        c.orphanBytes + size ≤ Config.maxOrphanBytes then
      (c, true)
    else
      match fuel, c.evictOldestOrphanLocked V with
      | fuel + 1, some c => evictFor size fuel c
      | _, _ => ({ c with orphanFIFO := [] }, false)

/-- Buffer a block whose parent is unknown, within the bounds on count and bytes. -/
def bufferOrphanLocked (c : Chain) (b : Block) : Chain :=
  let id := b.header.id V
  let size := b.serialize.length
  if c.orphanMeta.contains id ∨ Config.maxOrphanBytes < size then
    c
  else
    match c.evictFor V size c.orphanFIFO.length with
    | (c, false) => c
    | (c, true) =>
      let parent := b.header.prevHash
      let orphanMeta := c.orphanMeta.insert id ⟨parent, size⟩
      let queue := c.orphanFIFO ++ [id]
      { c with
        orphans := c.orphans.insert parent (c.orphans[parent]?.getD [] ++ [b])
        orphanMeta
        orphanFIFO :=
          if 2 * Config.maxOrphans < queue.length then
            queue.filter fun h => orphanMeta.contains h
          else queue
        orphanBytes := c.orphanBytes + size }

/-- Take a connected orphan out of the accounts. -/
def releaseOrphan (c : Chain) (child : Block) : Chain :=
  match c.orphanMeta[child.header.id V]? with
  | none => c
  | some entry =>
    { c with
      orphanMeta := c.orphanMeta.erase (child.header.id V)
      orphanBytes := c.orphanBytes - entry.bytes }

/-! ## Receiving a block -/

section Locked

variable (parallel : Bool) (now : Int)

/-- The checks on arrival, which do not depend on the branch. -/
def checkArrival (c : Chain) (h : Header) : Check Unit := do
  reject (h.difficulty = 0) (invalid "zero difficulty")
  reject ((c.ledger.powSeed V h.height).any fun seed =>
    !V.powMeets (h.powHashSeed V seed) h.difficulty) (invalid "insufficient proof of work")
  reject (now + Config.maxFutureDriftSeconds < h.timestamp) (invalid "timestamp too far in future")

/-- Whether a branch becomes the best one: more work, or as much and a lower id. -/
def becomesBest (c : Chain) (node best : ChainNode) : Bool :=
  decide (best.work < node.work) ||
    (decide (node.work = best.work) && lowerHash node.hash c.bestHash)

/-- Put a new tip into the tree, free old bodies, and take the periodic snapshot. -/
def settleTip (c : Chain) (node : ChainNode) : Chain :=
  let c := { c with nodes := c.nodes.insert node.hash node, bestHash := node.hash }
  let c := c.pruneNodeBodiesLocked V
  if 0 < node.height ∧ node.height % Config.snapshotInterval = 0 then c.saveSnapshotLocked else c

/-- Record a block of a side branch. -/
def storeSide (c : Chain) (node : ChainNode) : Chain :=
  { c with nodes := c.nodes.insert node.hash node }

/-- The fast path: the block extends the active tip. -/
def extendTip (c : Chain) (b : Block) (node : ChainNode) : Outcome × Chain :=
  match c.validateBlockLocked V parallel now b with
  | (.error error, c) => (.rejected error, c)
  | (.ok (), c) =>
    match c.applyBlock V true b with
    | (some error, c) => (.rejected error, c)
    | (none, c) => (.extended, c.settleTip V node)

/-- Switch to the branch that ends with the new block. -/
def switchTo (c : Chain) (node : ChainNode) (forkHeight : Nat) : Outcome × Chain :=
  match c.reorgToLocked V parallel now (c.branchToLocked V (some node)) forkHeight with
  | (some error, c) => (.reorgFailed error, c)
  | (none, c) => (.reorged, c.persistActiveChainLocked.settleTip V node)

/-- A block whose branch outranks the active chain and does not extend it. -/
def considerReorg (c : Chain) (node best : ChainNode) (difficulty : Nat) : Outcome × Chain :=
  let (depth, forkHeight) := c.reorgForkLocked node
  if Config.maxReorgDepth < depth then
    if Config.powSeedLag < depth then
      let bound := s!"reorg too deep ({depth} > seed-finality bound {Config.powSeedLag})"
      (.rejected (invalid (bound ++
        " — partition exceeds auto-heal window, manual intervention required")), c)
    else if Config.partitionRecoveryMargin ≠ 0 ∧
        Config.partitionRecoveryMargin * difficulty + best.work ≤ node.work then
      c.switchTo V parallel now node forkHeight
    else
      (.side, c.storeSide node)
  else
    c.switchTo V parallel now node forkHeight

/-- `addBlockLocked` up to the orphans of the block. -/
def addOne (c : Chain) (b : Block) : Outcome × Chain :=
  let id := b.header.id V
  if c.nodes.contains id then
    (.known, c)
  else
    match c.checkArrival V now b.header with
    | .error error => (.rejected error, c)
    | .ok () =>
      match c.nodes[b.header.prevHash]?, c.nodes[c.bestHash]? with
      | none, _ => (.orphan, c.bufferOrphanLocked V b)
      | some parent, best =>
        if b.header.height ≠ parent.height + 1 then
          (.rejected (invalid s!"height {b.header.height} not parent+1"), c)
        else
          let node : ChainNode :=
            ⟨id, b.header.prevHash, b.header.height, parent.work + b.header.difficulty, some b⟩
          match best with
          | none => (.rejected "runtime error: invalid memory address", c)
          | some best =>
            if !c.becomesBest node best then
              (.side, c.storeSide node)
            else if b.header.prevHash = c.bestHash then
              c.extendTip V parallel now b node
            else
              c.considerReorg V parallel now node best b.header.difficulty

/-- Take the orphans of a block out of the pool. -/
def takeOrphans (c : Chain) (parent : Hash) : List Block × Chain :=
  (c.orphans[parent]?.getD [], { c with orphans := c.orphans.erase parent })

/-- The recursion of `connectOrphansLocked`, with the blocks still to be added as a stack:
the orphans of a stored block come before its siblings. Each round takes one block that
was in the pool. -/
def connectOrphansLocked : (fuel : Nat) → Chain → List Block → List Outcome × Chain
  | _, c, [] => ([], c)
  | 0, c, _ => ([], c)
  | fuel + 1, c, child :: rest =>
    let (outcome, c) := (c.releaseOrphan V child).addOne V parallel now child
    let (children, c) :=
      if outcome.isStored then c.takeOrphans (child.header.id V) else ([], c)
    let (log, c) := connectOrphansLocked fuel c (children ++ rest)
    (outcome :: log, c)

/-- How many blocks wait in the pool. -/
def pooled (c : Chain) : Nat := OrdMap.total List.length c.orphans

/-- `addBlockLocked`: what became of the block, and of the orphans it released. -/
def addBlockLocked (c : Chain) (b : Block) : List Outcome × Chain :=
  let (outcome, c) := c.addOne V parallel now b
  if outcome.isStored then
    let fuel := c.pooled
    let (children, c) := c.takeOrphans (b.header.id V)
    let (log, c) := c.connectOrphansLocked V parallel now fuel children
    (outcome :: log, c)
  else
    ([outcome], c)

end Locked

/-! ## Opening a data directory -/

/-- Enter the next header of the active chain, with the work below it. -/
def indexHeader (state : Nat × Chain) (entry : Header × Nat) : Nat × Chain :=
  let (work, c) := state
  let (header, height) := entry
  let work := work + header.difficulty
  let id := header.id V
  (work, { c with
    nodes := c.nodes.insert id ⟨id, header.prevHash, height, work, none⟩
    bestHash := id })

/-- Index the active chain: its vertices hold no bodies. -/
def indexActiveChain (c : Chain) : Chain :=
  (c.ledger.headers.zipIdx.foldl (indexHeader V) (0, { c with nodes := ∅ })).2

section Locked

variable (parallel : Bool) (now : Int)

/-- Replay one stored body. -/
def replayStored (start : Nat) (c : Chain) (data : Bytes) : Option String × Chain :=
  match deserializeBlock data with
  | .error error => (some error, c)
  | .ok b =>
    if b.header.height < start then
      (none, c)
    else
      let (verdict, c) :=
        if b.header.height = 0 then (.ok (), c) else c.validateBlockLocked V parallel now b
      match verdict with
      | .error error => (some s!"replay validation height {b.header.height}: {error}", c)
      | .ok () =>
        let (result, c) := c.applyBlock V false b
        (result.map fun error => s!"replay height {b.header.height}: {error}", c)

/-- Where a replay starts: above the newest snapshot, when there is one and it fits its own
tip header, or from the empty state. -/
def replayStart (c : Chain) : Nat × Chain :=
  match c.restoreSnapshotAtMostLocked (2 ^ 64 - 1) with
  | some (height, restored) =>
    if restored.ledger.verifySnapshotLocked V then (height + 1, restored)
    else (0, restored.resetState V)
  | none => (0, c.resetState V)

/-- Where a replay may start. -/
theorem replayStart_cases (c : Chain) :
    (∃ height restored, c.restoreSnapshotAtMostLocked (2 ^ 64 - 1) = some (height, restored) ∧
      restored.ledger.verifySnapshotLocked V = true ∧ c.replayStart V = (height + 1, restored)) ∨
    c.replayStart V = (0, c.resetState V) ∨
    ∃ height restored, c.restoreSnapshotAtMostLocked (2 ^ 64 - 1) = some (height, restored) ∧
      c.replayStart V = (0, restored.resetState V) := by
  unfold replayStart
  cases found : c.restoreSnapshotAtMostLocked (2 ^ 64 - 1) with
  | none => exact Or.inr (Or.inl rfl)
  | some entry =>
    obtain ⟨height, restored⟩ := entry
    dsimp only
    by_cases fits : restored.ledger.verifySnapshotLocked V = true
    · exact Or.inl ⟨height, restored, rfl, fits, if_pos fits⟩
    · exact Or.inr (Or.inr ⟨height, restored, rfl, if_neg fits⟩)

/-- Replay the stored bodies that the newest snapshot does not cover. -/
def replay (c : Chain) : Option String × Chain :=
  let (start, c) := c.replayStart V
  let bodies := (c.stored.toList.filter fun entry => start ≤ entry.1).map Prod.snd
  stepUntil (replayStored V parallel now start) c.truncateStores bodies

/-- What a closed node leaves on disk. -/
def closed (c : Chain) : Chain where
  ledger := c.ledger.resetState V
  stored := c.stored
  snapshots := c.snapshots

/-- `New` on a data directory. -/
def new (disk : Chain) : Check Chain :=
  match disk.replay V parallel now with
  | (some error, _) => .error error
  | (none, c) =>
    if c.ledger.headers = [] then
      match c.applyBlock V true (genesisBlock V c.ledger) with
      | (some error, _) => .error error
      | (none, c) => .ok (c.indexActiveChain V)
    else
      .ok (c.indexActiveChain V)

end Locked

/-- An empty data directory. -/
def blank : Chain where
  ledger := .empty V

end Chain

end Obscura
