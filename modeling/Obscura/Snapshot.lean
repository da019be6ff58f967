import Obscura.ReplayStores

/-! # State snapshots

`chainSnapshot` as the record that a snapshot decodes to. The disk-backed stores are
represented in it by their counts alone; a restore takes over the counts and leaves
the buckets to a truncation. Restoring the snapshot of a chain and truncating gives
the state of that chain back, on top of any buckets that hold what the chain wrote
(`Ledger.restored`).
-/

namespace Obscura

open Wire Tx

/-- The state that a restart restores. -/
structure Snapshot where
  height : Nat
  emitted : UInt64
  incentivePool : UInt64
  coinCount : Nat
  spentCount : Nat
  tagsCount : Nat
  swaps : GoMap SwapEntry
  swapNonces : GoMap Bool
  vaults : GoMap VaultEntry
  accValues : GoMap Bool
  outPrimesCount : Nat
  referral : GoMap UInt64
  pqUtxo : GoMap PQOutput
  pqIndex : GoMap Int64
  pqNull : GoMap Bool
  pqRoots : GoMap Bool
  headers : List Header
  byHash : GoMap Nat
  acc : Accumulator
  nullAcc : PQAccum.Accumulator
  pqAcc : PQAccum.Accumulator
  cmTree : EpochIMT
  cmRoots : GoMap Bool
  cmFinal : GoMap Bool
  cmRootOrder : List Bytes
  zkNull : GoMap Bool
deriving DecidableEq

namespace Ledger

/-- The height of the tip, 0 for no chain. -/
def tipHeight (L : Ledger) : Nat := (L.tip?.map Header.height).getD 0

/-- `encodeSnapshotLocked`: the state of the ledger at its tip. -/
def encodeSnapshotLocked (L : Ledger) : Snapshot where
  height := L.tipHeight
  emitted := L.emitted
  incentivePool := L.incentivePool
  coinCount := L.coins.coinCount
  spentCount := L.spent.count
  tagsCount := L.tags.count
  swaps := L.swaps
  swapNonces := L.swapNonces
  vaults := L.vaults
  accValues := L.accValues
  outPrimesCount := L.outPrimes.count
  referral := L.referral
  pqUtxo := L.pqUtxo
  pqIndex := L.pqIndex
  pqNull := L.pqNull
  pqRoots := L.pqRoots
  headers := L.headers
  byHash := L.byHash
  acc := L.acc
  nullAcc := L.nullAcc
  pqAcc := L.pqAcc
  cmTree := L.cmTree
  cmRoots := L.cmRoots
  cmFinal := L.cmFinal
  cmRootOrder := L.cmRootOrder
  zkNull := L.zkNull

/-- Replace the state in memory by a snapshot. -/
def restoreSnapshotLocked (L : Ledger) (s : Snapshot) : Ledger where
  acc := s.acc
  spent := L.spent.setCount s.spentCount
  coins := { L.coins with coinCount := s.coinCount }
  tags := L.tags.setCount s.tagsCount
  outPrimes := L.outPrimes.setCount s.outPrimesCount
  swaps := s.swaps
  swapNonces := s.swapNonces
  vaults := s.vaults
  accValues := s.accValues
  headers := s.headers
  byHash := s.byHash
  emitted := s.emitted
  incentivePool := s.incentivePool
  referral := s.referral
  nullAcc := s.nullAcc
  pqAcc := s.pqAcc
  pqUtxo := s.pqUtxo
  pqIndex := s.pqIndex
  pqNull := s.pqNull
  pqRoots := s.pqRoots
  cmTree := s.cmTree
  cmRoots := s.cmRoots
  cmFinal := s.cmFinal
  cmRootOrder := s.cmRootOrder
  zkNull := s.zkNull

/-- Clear the state in memory; the buckets keep their entries. -/
def resetState (V : Primitives) (L : Ledger) : Ledger :=
  { Ledger.empty V with
    spent := L.spent.resetCount
    coins := { L.coins with coinCount := 0 }
    tags := L.tags.resetCount
    outPrimes := L.outPrimes.resetCount }

/-- Reconcile the buckets with the counts in memory. -/
def truncateStores (L : Ledger) : Ledger :=
  { L with
    coins := L.coins.truncateCoins L.coins.coinCount
    tags := L.tags.truncate L.tags.count
    outPrimes := L.outPrimes.truncate L.outPrimes.count
    spent := L.spent.truncate L.spent.count }

/-- Check restored state against the roots of its own tip header. -/
def verifySnapshotLocked (V : Primitives) (L : Ledger) : Bool :=
  match L.tip? with
  | none => false
  | some tip =>
    L.acc.value == tip.accValue && L.nullAcc.root V == tip.nullRoot &&
      L.pqAcc.root V == tip.pqAccRoot && L.cmTree.currentRoot == tip.cmRoot

/-! ## Restore and truncate -/

/-- The buckets of a state hold the given lists, and perhaps more. -/
structure Covers (V : Primitives) (L : Ledger) (lists : StoreLists) : Prop where
  spent : L.spent.db.Covers V lists.spent
  tags : L.tags.db.Covers V lists.tags
  outPrimes : L.outPrimes.db.Covers V lists.outPrimes
  coins : L.coins.Covers lists.coins

variable {V : Primitives} {L : Ledger}

theorem Stores.covers {lists : StoreLists} (stores : L.Stores V lists) : L.Covers V lists where
  spent := stores.spent.db.covers
  tags := stores.tags.db.covers
  outPrimes := stores.outPrimes.db.covers
  coins := stores.coins.covers

theorem Covers.append_left {first second : StoreLists}
    (covers : L.Covers V (first.append second)) : L.Covers V first where
  spent := covers.spent.append_left
  tags := covers.tags.append_left
  outPrimes := covers.outPrimes.append_left
  coins := covers.coins.append_left

theorem Covers.truncate {lists : StoreLists} (covers : L.Covers V lists)
    (spent : L.spent.count = lists.spent.length) (tags : L.tags.count = lists.tags.length)
    (outPrimes : L.outPrimes.count = lists.outPrimes.length)
    (coins : L.coins.coinCount = lists.coins.length) : L.truncateStores.Stores V lists where
  spent := by
    change (L.spent.truncate L.spent.count).Lists V _
    rw [spent]
    exact DiskSet.truncate_lists covers.spent
  tags := by
    change (L.tags.truncate L.tags.count).Lists V _
    rw [tags]
    exact DiskSet.truncate_lists covers.tags
  outPrimes := by
    change (L.outPrimes.truncate L.outPrimes.count).Lists V _
    rw [outPrimes]
    exact DiskSet.truncate_lists covers.outPrimes
  coins := by
    change (L.coins.truncateCoins L.coins.coinCount).Lists _
    rw [coins]
    exact covers.coins.truncate
  coinCount := coins

theorem Stores.unique {first second : Ledger} {lists : StoreLists} (one : first.Stores V lists)
    (two : second.Stores V lists) : first.spent = second.spent ∧ first.tags = second.tags ∧
      first.outPrimes = second.outPrimes ∧ first.coins = second.coins :=
  ⟨one.spent.unique two.spent, one.tags.unique two.tags, one.outPrimes.unique two.outPrimes,
    one.coins.unique two.coins (one.coinCount.trans two.coinCount.symm)⟩

theorem restored {disk : Ledger} {lists : StoreLists} (stores : L.Stores V lists)
    (covers : disk.Covers V lists) :
    (disk.restoreSnapshotLocked L.encodeSnapshotLocked).truncateStores = L := by
  have moved : (disk.restoreSnapshotLocked L.encodeSnapshotLocked).Covers V lists :=
    ⟨covers.spent, covers.tags, covers.outPrimes, ⟨covers.coins.byIndex, covers.coins.byKey,
      covers.coins.later, covers.coins.apart, covers.coins.distinct⟩⟩
  have cut := moved.truncate stores.spent.count stores.tags.count stores.outPrimes.count
    stores.coinCount
  obtain ⟨spent, tags, outPrimes, coins⟩ := cut.unique stores
  obtain ⟨acc, spent', coins', tags', outPrimes'⟩ := L
  simp only [truncateStores, restoreSnapshotLocked, encodeSnapshotLocked] at spent tags outPrimes coins ⊢
  rw [spent, tags, outPrimes, coins]

theorem resetState_truncated {disk : Ledger} (covers : disk.Covers V {}) :
    (disk.resetState V).truncateStores = .empty V := by
  have moved : (disk.resetState V).Covers V {} :=
    ⟨covers.spent, covers.tags, covers.outPrimes, ⟨covers.coins.byIndex, covers.coins.byKey,
      covers.coins.later, covers.coins.apart, covers.coins.distinct⟩⟩
  have blank : (Ledger.empty V).Stores V {} :=
    ⟨DiskSet.Lists.empty, DiskSet.Lists.empty, DiskSet.Lists.empty, CoinStore.Lists.empty, rfl⟩
  obtain ⟨spent, tags, outPrimes, coins⟩ := (moved.truncate rfl rfl rfl rfl).unique blank
  simp only [truncateStores, resetState] at spent tags outPrimes coins ⊢
  rw [spent, tags, outPrimes, coins]

end Ledger

/-! ## Snapshots of chains -/

section Chains

variable {V : Primitives}

theorem chainLists_suffix {older chain : List Block} (suffix : older <:+ chain) :
    ∃ more, chainLists V chain = (chainLists V older).append more := by
  obtain ⟨newer, rfl⟩ := suffix
  induction newer with
  | nil => exact ⟨{}, by ext1 <;> simp [StoreLists.append]⟩
  | cons b newer ih =>
    obtain ⟨more, below⟩ := ih
    refine ⟨more.append (blockLists V (chainLists V (newer ++ older)).coins.length b), ?_⟩
    rw [List.cons_append, chainLists, below]
    ext1 <;> simp [StoreLists.append]

theorem Ledger.Covers.suffix {disk : Ledger} {older chain : List Block} (suffix : older <:+ chain)
    (covers : disk.Covers V (chainLists V chain)) : disk.Covers V (chainLists V older) := by
  obtain ⟨more, split⟩ := chainLists_suffix (V := V) suffix
  rw [split] at covers
  exact covers.append_left

theorem Chained.covers {chain : List Block} (chained : Chained V (Admitted V) chain) :
    (replay V chain).Covers V (chainLists V chain) :=
  chained.stores.covers

theorem Chained.restored {disk : Ledger} {chain : List Block}
    (chained : Chained V (Admitted V) chain) (covers : disk.Covers V (chainLists V chain)) :
    (disk.restoreSnapshotLocked (replay V chain).encodeSnapshotLocked).truncateStores =
      replay V chain :=
  Ledger.restored chained.stores covers

end Chains

end Obscura
