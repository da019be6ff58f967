import Obscura.ForkChoice
import Obscura.Revalidate

/-! # Blocks and transactions from peers

The part of `dispatch` that hands blocks to the chain and transactions to the mempool.
Messages are taken decoded; a payload that does not decode changes neither store. A
block that `AddBlock` takes without an error has its transactions removed from the
pool, whatever became of the active chain.

The pool and the chain agree when no pooled transaction spends what the active chain
has spent, and when a transaction leaves the pool only for one on the active chain, or
because it expired, was replaced or was evicted.
-/

namespace Obscura.P2p.Relay

open Wire Tx Checked Mempool

/-- The chain and the mempool of a node. -/
structure Node where
  chain : Chain
  mp : Mempool := {}

/-- A message, with the readings of the clock and the orders in which maps are listed. -/
inductive Event
  | block (parallel : Bool) (now : Int) (b : Block)
  | tx (now added : Int) (listings : Nat → Listing) (t : Transaction)

section Dispatch

variable (V : Primitives)

/-- `AddBlock`, and `Remove` when it returns no error. -/
def recvBlock (parallel : Bool) (now : Int) (n : Node) (b : Block) : Node :=
  let (outcomes, chain) := n.chain.addBlockLocked V parallel now b
  match outcomes.head?.map Outcome.result with
  | some (.ok _) => ⟨chain, remove V n.mp b.txs⟩
  | _ => ⟨chain, n.mp⟩

/-- `Mempool.Add`. The chain is asked after the cheap checks. -/
def recvTx (now added : Int) (listings : Nat → Listing) (n : Node) (t : Transaction) : Node :=
  match precheck (n.mp.txs[hashHex V t]?).isSome (.ok ()) t with
  | .error _ => n
  | .ok _ =>
    let (verdict, verifiedProofs) :=
      validateStandaloneTx V n.chain.ledger n.chain.verifiedProofs t
    let chain := { n.chain with verifiedProofs }
    match verdict with
    | .error _ => ⟨chain, n.mp⟩
    | .ok _ => ⟨chain, (addLocked V n.chain.ledger now added listings n.mp t).2⟩

/-- The handler of an event. -/
def dispatch (n : Node) : Event → Node
  | .block parallel now b => recvBlock V parallel now n b
  | .tx now added listings t => recvTx V now added listings n t

end Dispatch

/-- The block of a message. -/
def Event.blocks : Event → List Block
  | .block _ _ b => [b]
  | .tx _ _ _ _ => []

/-! ## Consistency -/

section Consistency

variable (V : Primitives)

/-- Nothing that a transaction spends has been spent. -/
structure Unspent (L : Ledger) (t : Transaction) : Prop where
  refs : ∀ input ∈ t.inputs, L.spent.has (hexstr input.outputRef) = false
  images : ∀ input ∈ t.inputs, L.tags.has (hexstr (recordedTag V input.keyImage)) = false
  tags : ∀ input ∈ t.anonInputs, L.tags.has (hexstr (recordedTag V input.tag)) = false
  swaps : ∀ input ∈ t.swapInputs, (L.swaps[hexstr input.swapKey]?).isSome = true
  vaults : ∀ input ∈ t.vaultInputs, (L.vaults[hexstr input.vaultKey]?).isSome = true
  notes : ∀ input ∈ t.zkInputs, inSet L.zkNull (hexstr input.nullifier) = false
  confidential : ∀ s ∈ t.czkSpends, inSet L.zkNull (hexstr s.nullifier) = false
  pqInputs : ∀ input ∈ t.pqInputs, inSet L.pqNull (hexstr input.nullifier) = false

/-- A block of the active chain, as its header commits to it. -/
def OnActive (L : Ledger) (b : Block) : Prop :=
  b.header ∈ L.headers ∧ merkleRoot V b.txs = b.header.merkleRoot

/-- One of the blocks is on the active chain and holds the transaction or a conflicting one. -/
def Confirmed (seen : List Block) (L : Ledger) (t : Transaction) : Prop :=
  ∃ b ∈ seen, OnActive V L b ∧ ∃ s ∈ b.txs, s.isCoinbase = false ∧
    (hashHex V s = hashHex V t ∨ ∃ key ∈ spendKeys V t, key ∈ spendKeys V s)

/-- A message makes a pooled transaction expire, replaces it, or evicts it for a higher fee
rate. -/
inductive Displaced (e : Entry) : Event → Prop
  | expired {now added listings t} (old : txTTL < now - e.added) :
      Displaced e (.tx now added listings t)
  | replaced {now added listings t} {key : Bytes} (held : key ∈ spendKeys V e.tx)
      (taken : key ∈ spendKeys V t) : Displaced e (.tx now added listings t)
  | evicted {now added listings t} (lower : e.feeRate < rateOf t t.serialize.length) :
      Displaced e (.tx now added listings t)

/-- What a dispatched message leaves consistent. -/
structure Consistent (seen : List Block) (n : Node) (event : Event) (n' : Node) : Prop where
  unspent : ∀ (id : Bytes) (e : Entry), n'.mp.txs[id]? = some e → Unspent V n'.chain.ledger e.tx
  removed : ∀ (id : Bytes) (e : Entry), n.mp.txs[id]? = some e → n'.mp.txs[id]? = none →
    Confirmed V seen n'.chain.ledger e.tx ∨ Displaced V e event

/-- Every message of a sequence leaves the node consistent; `seen` are the blocks before it. -/
def ConsistentRun : (seen : List Block) → Node → List Event → Prop
  | _, _, [] => True
  | seen, n, event :: events =>
    Consistent V (event.blocks ++ seen) n event (dispatch V n event) ∧
      ConsistentRun (event.blocks ++ seen) (dispatch V n event) events

/-! ## Steps that touch the tip only -/

/-- The block that `addBlockLocked` enters into the tree. -/
def vertex (parent : ChainNode) (b : Block) : ChainNode :=
  ⟨b.header.id V, b.header.prevHash, b.header.height, parent.work + b.header.difficulty, some b⟩

/-- A block is already on the active chain, or its arrival is refused or its parent unknown, or
it extends the tip and releases no orphan, or its branch is too deep for a switch. -/
structure AtTip (now : Int) (c : Chain) (b : Block) : Prop where
  known : c.nodes.contains (b.header.id V) = true → OnActive V c.ledger b
  connects : c.nodes.contains (b.header.id V) = false → c.checkArrival V now b.header = .ok () →
    ∀ parent best, c.nodes[b.header.prevHash]? = some parent → c.nodes[c.bestHash]? = some best →
      b.header.height = parent.height + 1 →
        (b.header.prevHash = c.bestHash ∧ c.orphans[b.header.id V]?.getD [] = []) ∨
        (c.becomesBest (vertex V parent b) best = true ∧ b.header.prevHash ≠ c.bestHash ∧
          Config.maxReorgDepth < (c.reorgForkLocked (vertex V parent b)).1 ∧
          Config.powSeedLag < (c.reorgForkLocked (vertex V parent b)).1)

/-- Every block of a sequence of messages is of this kind when it arrives. -/
def AtTipRun : Node → List Event → Prop
  | _, [] => True
  | n, event :: events =>
    (match event with
      | .block _ now b => AtTip V now n.chain b
      | .tx _ _ _ _ => True) ∧ AtTipRun (dispatch V n event) events

end Consistency

end Obscura.P2p.Relay
