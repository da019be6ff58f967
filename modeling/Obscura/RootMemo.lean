import Obscura.Snapshot
import Obscura.Testnet

/-! # The memoized state root

A node keeps the state root it computed last and answers with it until the memo is dropped.
Applying a block, a reset and a restore drop it; `SeedPQOutput` does not. So the memo is the
root of the current state in every run whose seeds come while no root is held
(`memo_agrees_of_unheld_seeds`), and a seed after a read leaves an old root behind
(`seeded_root_stale`).
-/

namespace Obscura

open Wire Tx Checked

/-- `SeedPQOutput` on the consensus state: the output enters the anonymity set, and the new
root becomes an anchor. -/
def Ledger.seedPQOutput (V : Primitives) (L : Ledger) (o : PQOutput) : Check Ledger := do
  reject (o.oneTimeKey.length ≠ 32) (invalid "bad pq seed key")
  reject (L.pqUtxo[hexstr o.oneTimeKey]?.isSome) (invalid "duplicate pq seed key")
  let key := hexstr o.oneTimeKey
  return recordPQRoot V
    { L with
      pqAcc := L.pqAcc.add V o.oneTimeKey
      pqIndex := L.pqIndex.insert key (Int64.ofNat L.pqAcc.len)
      pqUtxo := L.pqUtxo.insert key { oneTimeKey := o.oneTimeKey, amount := o.amount } }

/-- The consensus state with the memo of its root. -/
structure RootedLedger where
  ledger : Ledger
  srCache : Hash := zeroHash
  srCacheOK : Bool := false

namespace RootedLedger

/-- A node that has not computed a root yet. -/
def unread (L : Ledger) : RootedLedger := { ledger := L }

variable (V : Primitives)

/-! ## The operations -/

/-- `stateRootLocked`: the memo, or the root computed and remembered. -/
def stateRootLocked (c : RootedLedger) : Hash × RootedLedger :=
  if c.srCacheOK then
    (c.srCache, c)
  else
    let r := c.ledger.stateRoot V
    (r, { c with srCache := r, srCacheOK := true })

/-- `invalidateStateRoot`: the memo is dropped. -/
def invalidateStateRoot (c : RootedLedger) : RootedLedger := { c with srCacheOK := false }

/-- `applyBlock`, which drops the memo first. -/
def applyBlock (c : RootedLedger) (b : Block) : Option String × RootedLedger :=
  let c := c.invalidateStateRoot
  let (result, L) := Obscura.applyBlock V c.ledger b
  (result, { c with ledger := L })

/-- `resetState`, which drops the memo first. -/
def resetState (c : RootedLedger) : RootedLedger :=
  let c := c.invalidateStateRoot
  { c with ledger := c.ledger.resetState V }

/-- `restoreSnapshotLocked`, which drops the memo first. -/
def restoreSnapshotLocked (c : RootedLedger) (s : Snapshot) : RootedLedger :=
  let c := c.invalidateStateRoot
  { c with ledger := c.ledger.restoreSnapshotLocked s }

/-- The stores cut back to the ledger. -/
def truncateStores (c : RootedLedger) : RootedLedger :=
  { c with ledger := c.ledger.truncateStores }

/-- The start of a rebuild: a snapshot or a reset, then the truncation of the buckets. -/
def rebuildStart (c : RootedLedger) : Option Snapshot → RootedLedger
  | some s => (c.restoreSnapshotLocked s).truncateStores
  | none => (c.resetState V).truncateStores

/-- The start of a replay: a snapshot is kept when it fits its own tip header. -/
def replayStart (c : RootedLedger) : Option Snapshot → RootedLedger
  | some s =>
    let restored := c.restoreSnapshotLocked s
    if restored.ledger.verifySnapshotLocked V then restored.truncateStores
    else (restored.resetState V).truncateStores
  | none => (c.resetState V).truncateStores

/-- The last step of `VerifyAndImportSnapshot`: fill the disk sets, then restore. -/
def importSnapshot (c : RootedLedger) (spent tags outPrimes : List Bytes) (s : Snapshot) :
    RootedLedger :=
  let filled := { c with ledger := { c.ledger with
    spent := c.ledger.spent.importMembers V spent
    tags := c.ledger.tags.importMembers V tags
    outPrimes := c.ledger.outPrimes.importMembers V outPrimes } }
  filled.restoreSnapshotLocked s

/-- `SeedPQOutput`, which leaves the memo alone. -/
def seedPQOutput (c : RootedLedger) (o : PQOutput) : Check Unit × RootedLedger :=
  match c.ledger.seedPQOutput V o with
  | .error error => (.error error, c)
  | .ok L => (.ok (), { c with ledger := L })

/-! ## Runs -/

/-- What a node does to its consensus state, and the reads of the root by templates and
validation. -/
inductive Op where
  | readRoot
  | applyBlock (b : Block)
  | rebuild (restored : Option Snapshot)
  | restart (restored : Option Snapshot)
  | importSnapshot (spent tags outPrimes : List Bytes) (s : Snapshot)
  | seed (o : PQOutput)

/-- The ledger and its memo after an operation. -/
def step (c : RootedLedger) : Op → RootedLedger
  | .readRoot => (c.stateRootLocked V).2
  | .applyBlock b => (c.applyBlock V b).2
  | .rebuild restored => c.rebuildStart V restored
  | .restart restored => c.replayStart V restored
  | .importSnapshot spent tags outPrimes s => c.importSnapshot V spent tags outPrimes s
  | .seed o => (c.seedPQOutput V o).2

/-- The ledger and its memo after a list of operations. -/
def run (c : RootedLedger) (ops : List Op) : RootedLedger := ops.foldl (step V) c

/-! ## The memo -/

/-- A memo that is held is the root of the state. -/
def Coherent (c : RootedLedger) : Prop := c.srCacheOK = true → c.srCache = c.ledger.stateRoot V

/-- A seed is refused for its key, or it comes while no root is held. -/
def Unheld (c : RootedLedger) : Op → Prop
  | .seed o => o.oneTimeKey.length ≠ 32 ∨ c.ledger.pqUtxo[hexstr o.oneTimeKey]?.isSome = true ∨
      c.srCacheOK = false
  | _ => True

/-- So it is for every operation of a run. -/
def UnheldSeeds (c : RootedLedger) : List Op → Prop
  | [] => True
  | op :: ops => c.Unheld op ∧ (c.step V op).UnheldSeeds ops

variable {V}

theorem Coherent.of_dropped {c : RootedLedger} (dropped : c.srCacheOK = false) : c.Coherent V := by
  intro held
  rw [dropped] at held
  exact absurd held Bool.false_ne_true

theorem Coherent.read {c : RootedLedger} (coherent : c.Coherent V) :
    (c.stateRootLocked V).1 = c.ledger.stateRoot V := by
  unfold stateRootLocked
  by_cases held : c.srCacheOK = true
  · rw [if_pos held]
    exact coherent held
  · rw [if_neg held]

/-- **One operation.** -/
theorem Coherent.step {c : RootedLedger} (coherent : c.Coherent V) {op : Op}
    (unheld : c.Unheld op) : (c.step V op).Coherent V := by
  cases op with
  | readRoot =>
    change (c.stateRootLocked V).2.Coherent V
    unfold stateRootLocked
    by_cases held : c.srCacheOK = true
    · rw [if_pos held]
      exact coherent
    · rw [if_neg held]
      exact fun _ => rfl
  | applyBlock b => exact Coherent.of_dropped rfl
  | rebuild restored =>
    cases restored with
    | none => exact Coherent.of_dropped rfl
    | some s => exact Coherent.of_dropped rfl
  | restart restored =>
    cases restored with
    | none => exact Coherent.of_dropped rfl
    | some s =>
      apply Coherent.of_dropped
      change (if _ then _ else _ : RootedLedger).srCacheOK = false
      split_ifs
      · rfl
      · rfl
  | importSnapshot spent tags outPrimes s => exact Coherent.of_dropped rfl
  | seed o =>
    change (c.seedPQOutput V o).2.Coherent V
    unfold seedPQOutput
    cases result : c.ledger.seedPQOutput V o with
    | error error => exact coherent
    | ok L =>
      unfold Ledger.seedPQOutput at result
      simp only [bind_ok, reject_ok, exists_const] at result
      obtain ⟨width, fresh, -⟩ := result
      rcases unheld with narrow | listed | dropped
      · exact absurd narrow width
      · exact absurd listed fresh
      · exact Coherent.of_dropped dropped

/-- Along a run. -/
theorem Coherent.run {c : RootedLedger} (coherent : c.Coherent V) {ops : List Op}
    (unheld : c.UnheldSeeds V ops) : (c.run V ops).Coherent V := by
  induction ops generalizing c with
  | nil => exact coherent
  | cons op ops ih => exact ih (coherent.step unheld.1) unheld.2

theorem UnheldSeeds.take {c : RootedLedger} {ops : List Op} (unheld : c.UnheldSeeds V ops) (n : Nat) :
    c.UnheldSeeds V (ops.take n) := by
  induction ops generalizing c n with
  | nil => rwa [List.take_nil]
  | cons op ops ih =>
    cases n with
    | zero => exact trivial
    | succ n => exact ⟨unheld.1, ih unheld.2 n⟩

end RootedLedger

open RootedLedger

/-- **The memo agrees.** From a node that holds no root, in every run whose seeds are refused
or come while no root is held: in every state on the way a held root is the root of the
state, and reading it gives what a computation gives. -/
theorem memo_agrees_of_unheld_seeds {V : Primitives} {L : Ledger} {ops : List Op}
    (unheld : (unread L).UnheldSeeds V ops) (n : Nat) :
    ((unread L).run V (ops.take n)).Coherent V ∧
      (((unread L).run V (ops.take n)).stateRootLocked V).1 =
        ((unread L).run V (ops.take n)).ledger.stateRoot V := by
  have start : (unread L).Coherent V := Coherent.of_dropped rfl
  have coherent := start.run (unheld.take n)
  exact ⟨coherent, coherent.read⟩

namespace Testnet

/-- A network whose hash is the preimage itself. -/
def plain : Primitives := primitives id

/-- An output for the seed. -/
def seedling : PQOutput := { oneTimeKey := List.replicate 32 7, amount := 1 }

/-- A seed right after genesis, then a read. -/
def seedRun : List Op :=
  [.applyBlock (genesisBlock plain (.empty plain)), .seed seedling, .readRoot]

theorem seedRun_unheld : (unread (.empty plain)).UnheldSeeds plain seedRun :=
  ⟨trivial, Or.inr (Or.inr rfl), trivial, trivial⟩

theorem memo_agrees_after_seedRun :
    ((unread (.empty plain)).run plain (seedRun.take 3)).Coherent plain ∧
      (((unread (.empty plain)).run plain (seedRun.take 3)).stateRootLocked plain).1 =
        ((unread (.empty plain)).run plain (seedRun.take 3)).ledger.stateRoot plain :=
  memo_agrees_of_unheld_seeds seedRun_unheld 3

/-- A template reads the root after genesis, then an output is seeded. -/
def staleRun : List Op :=
  [.applyBlock (genesisBlock plain (.empty plain)), .readRoot, .seed seedling]

end Testnet

/-- The root that is held after `staleRun` is not that of the state. -/
theorem seeded_root_stale :
    ¬ ∀ (V : Primitives) (L : Ledger) (ops : List Op), ((unread L).run V ops).Coherent V := by
  intro always
  have coherent := always Testnet.plain (.empty Testnet.plain) Testnet.staleRun
  have held : ((unread (.empty Testnet.plain)).run Testnet.plain Testnet.staleRun).srCacheOK = true := by
    decide
  have differ : ((unread (.empty Testnet.plain)).run Testnet.plain Testnet.staleRun).srCache ≠
      ((unread (.empty Testnet.plain)).run Testnet.plain Testnet.staleRun).ledger.stateRoot
        Testnet.plain := by
    decide +kernel
  exact differ (coherent held)

end Obscura
