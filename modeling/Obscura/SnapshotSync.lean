import Obscura.AccumulatorState
import Obscura.ForkChoice
import Obscura.HeaderChain
import Obscura.RootMemo
import Obscura.Streaming

/-! # Snapshots from peers

A fresh node adopts the state a peer sends only after it has checked it against the headers
the peer sends along: the chain of headers, the accumulator roots against the header at the
height of the state, and everything else against the state root of the header after it. All
checks come before the first change. What is decoded and restored again afterwards is what
was decoded and restored before, so the late failures never happen, and a refused import
leaves the node as it was. The height is compared with the number of headers after an
addition in 64 bits; the largest height wraps there and is then used as an index
(`import_sound_iff`).
-/

namespace Obscura

open Wire Tx Checked

namespace Config

/-- The most headers of a snapshot. -/
def maxSnapshotHeaders : Nat := 50_000_000

/-- The most members of each set of a snapshot. -/
def maxSnapshotMembers : Nat := 200_000_000

/-- The largest height that fits a word. -/
def maxHeight : UInt64 := 18_446_744_073_709_551_615

end Config

/-! ## Formats -/

/-- The fields of an encoded state snapshot; the accumulators are in formats of their own. -/
structure ChainSnapshot where
  height : UInt64 := 0
  emitted : UInt64 := 0
  incentivePool : UInt64 := 0
  coinCount : UInt64 := 0
  spentCount : UInt64 := 0
  tagsCount : UInt64 := 0
  swaps : GoMap SwapEntry := ∅
  swapNonces : GoMap Bool := ∅
  vaults : GoMap VaultEntry := ∅
  accValues : GoMap Bool := ∅
  outPrimesCount : UInt64 := 0
  referral : GoMap UInt64 := ∅
  pqUtxo : GoMap PQOutput := ∅
  pqIndex : GoMap Int64 := ∅
  pqNull : GoMap Bool := ∅
  pqRoots : GoMap Bool := ∅
  headers : List Header := []
  byHash : GoMap Nat := ∅
  acc : Bytes := []
  nullAcc : Bytes := []
  pqAcc : Bytes := []
  cmTree : Bytes := []
  cmRoots : GoMap Bool := ∅
  cmFinal : GoMap Bool := ∅
  cmRootOrder : List Bytes := []
  zkNull : GoMap Bool := ∅

/-- A state snapshot with the headers of the chain and the members of the disk sets. -/
structure TransferSnapshot where
  state : Bytes := []
  headers : List Header := []
  spentMembers : List Bytes := []
  tagsMembers : List Bytes := []
  outPrimeMembers : List Bytes := []

/-- The decoders a snapshot goes through: `gob` for the two records, and `Unmarshal` of the
group, whose elements are kept in their canonical encoding. -/
structure SnapshotCodec where
  transfer : Bytes → Except String TransferSnapshot
  state : Bytes → Except String ChainSnapshot
  unmarshal : Bytes → Except String Bytes

/-- The elements of the group are kept as bytes. -/
def Accumulator.restoreState (unmarshal : Bytes → Except String Bytes) (data : Bytes) :
    Except String Accumulator :=
  (Witnesses.Accumulator.restoreState ⟨id, unmarshal⟩ data).map fun a =>
    { value := a.acc, valueOnly := a.valueOnly, count := a.count, members := a.members.map Int.toNat }

/-- The state of one tree: depth, count, root and the frontier. -/
def loadIMT256State (data : Bytes) : Option IMT256 :=
  let depth := ofBigEndian (data.take 4)
  if data.length < 12 ∨ depth = 0 ∨ 64 < depth ∨ data.length ≠ 4 + 8 + 32 + depth * 32 then
    none
  else
    some
      { depth
        count := ofBigEndian ((data.drop 4).take 8)
        root := (data.drop 12).take 32
        filled := (List.range depth).map fun k => (data.drop (44 + 32 * k)).take 32 }

/-- So many trees, each after its length. -/
def loadTrees : Nat → Bytes → Option (List IMT256)
  | 0, _ => some []
  | n + 1, data => do
      let l := ofBigEndian (data.take 4)
      if data.length < 4 ∨ data.length < 4 + l then none
      let tree ← loadIMT256State ((data.drop 4).take l)
      let trees ← loadTrees n (data.drop (4 + l))
      pure (tree :: trees)

/-- `LoadEpochIMTState`: the finished trees and the open one. -/
def loadEpochIMTState (data : Bytes) : Option EpochIMT := do
  let n := ofBigEndian (data.take 4)
  if data.length < 4 ∨ n = 0 ∨ 2 ^ 20 < n then none
  let trees ← loadTrees n (data.drop 4)
  let first ← trees.head?
  let current ← trees.getLast?
  pure { depth := first.depth, finalized := trees.dropLast, current }

/-- The state that a snapshot stands for, with its accumulators restored. -/
def ChainSnapshot.toSnapshot (s : ChainSnapshot) (acc : Accumulator)
    (nullAcc pqAcc : PQAccum.Accumulator) (cmTree : EpochIMT) : Snapshot where
  height := s.height.toNat
  emitted := s.emitted
  incentivePool := s.incentivePool
  coinCount := s.coinCount.toNat
  spentCount := s.spentCount.toNat
  tagsCount := s.tagsCount.toNat
  swaps := s.swaps
  swapNonces := s.swapNonces
  vaults := s.vaults
  accValues := s.accValues
  outPrimesCount := s.outPrimesCount.toNat
  referral := s.referral
  pqUtxo := s.pqUtxo
  pqIndex := s.pqIndex
  pqNull := s.pqNull
  pqRoots := s.pqRoots
  headers := s.headers
  byHash := s.byHash
  acc := acc
  nullAcc := nullAcc
  pqAcc := pqAcc
  cmTree := cmTree
  cmRoots := s.cmRoots
  cmFinal := s.cmFinal
  cmRootOrder := s.cmRootOrder
  zkNull := s.zkNull

/-- The state that the members and the snapshot give, for its root. -/
def TransferSnapshot.residual (V : Primitives) (t : TransferSnapshot) (s : ChainSnapshot) :
    ResidualState where
  emitted := s.emitted
  incentivePool := s.incentivePool
  spentCommit := commitOfMembers V t.spentMembers
  tagsCommit := commitOfMembers V t.tagsMembers
  outPrimeCommit := commitOfMembers V t.outPrimeMembers
  swapNonces := s.swapNonces
  accValues := s.accValues
  pqNull := s.pqNull
  pqRoots := s.pqRoots
  cmRoots := s.cmRoots
  cmFinal := s.cmFinal
  zkNull := s.zkNull
  referral := s.referral
  pqIndex := s.pqIndex
  cmRootOrder := s.cmRootOrder
  swaps := s.swaps
  vaults := s.vaults
  pqUtxo := s.pqUtxo

/-! ## The import -/

/-- A node with the memo of its state root. -/
structure SyncChain where
  chain : Chain
  srCache : Hash := zeroHash
  srCacheOK : Bool := false

/-- How an import fails: with an error, or in the runtime. -/
inductive Fault where
  | refused (error : String)
  | outOfRange
deriving DecidableEq

/-- `headers[i]`. -/
def headerAt (headers : List Header) (i : UInt64) : Except Fault Header :=
  orReject headers[i.toNat]? .outOfRange

section Import

variable (V : Primitives) (K : SnapshotCodec)

namespace SyncChain

/-- Decode a transfer, and compare its genesis with ours. -/
def readTransfer (c : SyncChain) (data : Bytes) :
    Except Fault (TransferSnapshot × ChainSnapshot) := do
  reject (c.chain.ledger.headers.length = 0) (.refused (invalid "local chain not initialized"))
  let ours ← headerAt c.chain.ledger.headers 0
  let t ← (K.transfer data).mapError fun err => .refused (invalid s!"transfer decode: {err}")
  reject (t.headers.length = 0 ∨ Config.maxSnapshotHeaders < t.headers.length)
    (.refused (invalid "transfer header count out of range"))
  reject (Config.maxSnapshotMembers < t.spentMembers.length ∨
      Config.maxSnapshotMembers < t.tagsMembers.length ∨
      Config.maxSnapshotMembers < t.outPrimeMembers.length)
    (.refused (invalid "transfer member list too large"))
  let s ← (K.state t.state).mapError fun err =>
    .refused (invalid s!"transfer state decode: {err}")
  let genesis ← headerAt t.headers 0
  reject (genesis.id V ≠ ours.id V)
    (.refused (invalid "snapshot genesis mismatch (foreign network)"))
  pure (t, s)

end SyncChain

/-- The accumulators of a snapshot against the header at its height. -/
def checkPostState (s : ChainSnapshot) (hH : Header) : Except Fault Unit := do
  let acc ← (Accumulator.restoreState K.unmarshal s.acc).mapError fun _ =>
    .refused (invalid "snapshot acc restore")
  let nullAcc ← (PQAccum.restoreState s.nullAcc).mapError fun _ =>
    .refused (invalid "snapshot nullAcc restore")
  let pqAcc ← (PQAccum.restoreState s.pqAcc).mapError fun _ =>
    .refused (invalid "snapshot pqAcc restore")
  let cmTree ← orReject (loadEpochIMTState s.cmTree)
    (.refused (invalid "snapshot cmTree restore failed"))
  reject (acc.value ≠ hH.accValue)
    (.refused (invalid "snapshot AccValue != header[H] (tampered state)"))
  reject (nullAcc.root V ≠ hH.nullRoot)
    (.refused (invalid "snapshot NullRoot != header[H] (tampered state)"))
  reject (pqAcc.root V ≠ hH.pqAccRoot)
    (.refused (invalid "snapshot PQAccRoot != header[H] (tampered state)"))
  reject (cmTree.currentRoot ≠ hH.cmRoot)
    (.refused (invalid "snapshot CMRoot != header[H] (tampered state)"))

/-- Everything that is checked about a transfer from its height on. -/
def checkTransfer (t : TransferSnapshot) (s : ChainSnapshot) : Except Fault Unit := do
  let H := s.height
  reject (t.headers.length ≤ (H + 1).toNat)
    (.refused (invalid
      "transfer headers must extend past H+1 for the pre-state root check"))
  let hH ← headerAt t.headers H
  reject (hH.height ≠ H.toNat) (.refused (invalid "transfer header index/height mismatch"))
  (verifyHeaderChain V t.headers).mapError .refused
  checkPostState V K s hH
  reject (t.spentMembers.length ≠ s.spentCount.toNat ∨ t.tagsMembers.length ≠ s.tagsCount.toNat ∨
      t.outPrimeMembers.length ≠ s.outPrimesCount.toNat)
    (.refused (invalid "transfer member count != snapshot count"))
  let child ← headerAt t.headers (H + 1)
  reject (stateRootOf V (t.residual V s) ≠ child.stateRoot)
    (.refused (invalid "residual state-root != header[H+1] (tampered uncommitted state)"))

/-- The state that an encoded snapshot restores to; a commitment tree that does not load is
replaced by an empty one. -/
def decodeSnapshot (data : Bytes) : Check Snapshot := do
  let s ← K.state data
  let acc ← Accumulator.restoreState K.unmarshal s.acc
  let nullAcc ← PQAccum.restoreState s.nullAcc
  let pqAcc ← PQAccum.restoreState s.pqAcc
  pure (s.toSnapshot acc nullAcc pqAcc
    ((loadEpochIMTState s.cmTree).getD (EpochIMT.new V Config.zkDepth)))

namespace SyncChain

/-- `restoreSnapshotLocked`: nothing is changed by a snapshot that does not decode. -/
def restoreSnapshotLocked (c : SyncChain) (data : Bytes) : Check Unit × SyncChain :=
  let c := { c with srCacheOK := false }
  match decodeSnapshot V K data with
  | .error error => (.error error, c)
  | .ok s =>
    (.ok (), { c with chain :=
      { c.chain with ledger := c.chain.ledger.restoreSnapshotLocked s, blocks := ∅ } })

/-- Fill the disk sets from the transferred members. -/
def importMembers (c : SyncChain) (t : TransferSnapshot) : SyncChain :=
  let L := c.chain.ledger
  { c with chain := { c.chain with ledger := { L with
      spent := L.spent.importMembers V t.spentMembers
      tags := L.tags.importMembers V t.tagsMembers
      outPrimes := L.outPrimes.importMembers V t.outPrimeMembers } } }

/-- All checks on a transfer. -/
def verifyTransfer (c : SyncChain) (data : Bytes) :
    Except Fault (TransferSnapshot × ChainSnapshot) := do
  let (t, s) ← c.readTransfer V K data
  checkTransfer V K t s
  pure (t, s)

/-- Adopt the state of a peer when every check passes. -/
def verifyAndImportSnapshot (c : SyncChain) (data : Bytes) : Except Fault UInt64 × SyncChain :=
  match c.verifyTransfer V K data with
  | .error fault => (.error fault, c)
  | .ok (t, s) =>
    match (c.importMembers V t).restoreSnapshotLocked V K t.state with
    | (.error error, c) => (.error (.refused (invalid s!"snapshot commit: {error}")), c)
    | (.ok (), c) => (.ok s.height, { c with chain := c.chain.indexActiveChain V })

end SyncChain

end Import

/-! ## What is read -/

section Reading

variable {V : Primitives} {K : SnapshotCodec} {c : SyncChain} {data : Bytes}
  {t : TransferSnapshot} {s : ChainSnapshot}

theorem SyncChain.readTransfer_spec (read : c.readTransfer V K data = .ok (t, s)) :
    t.headers ≠ [] ∧ t.headers.length ≤ Config.maxSnapshotHeaders ∧ K.state t.state = .ok s := by
  unfold readTransfer at read
  simp only [bind_ok, reject_ok, exists_const, mapError_ok, pure_ok, Prod.mk.injEq] at read
  obtain ⟨-, ours, -, t', -, count, -, s', state, genesis, -, -, rfl, rfl⟩ := read
  obtain ⟨some, bound⟩ := not_or.mp count
  exact ⟨fun none => some (congrArg List.length none), Nat.le_of_not_lt bound, state⟩

/-- A program that indexes nothing out of range. -/
def InRange {α : Type} (program : Except Fault α) : Prop := program ≠ .error .outOfRange

theorem InRange.bind {α β : Type} {program : Except Fault α} {next : α → Except Fault β}
    (first : InRange program) (rest : ∀ value, program = .ok value → InRange (next value)) :
    InRange (program >>= next) := by
  cases program with
  | ok value => exact rest value rfl
  | error fault => exact fun hit => first (congrArg Except.error (Except.error.inj hit))

theorem InRange.pure {α : Type} (value : α) : InRange (Pure.pure value) :=
  fun hit => by cases hit

theorem InRange.reject {bad : Prop} [Decidable bad] {error : String} :
    InRange (Checked.reject bad (Fault.refused error)) := by
  unfold Checked.reject
  split_ifs
  · exact fun hit => Fault.noConfusion (Except.error.inj hit)
  · exact InRange.pure ()

theorem InRange.orReject {α : Type} {value : Option α} {error : String} :
    InRange (Checked.orReject value (Fault.refused error)) := by
  cases value with
  | none => exact fun hit => Fault.noConfusion (Except.error.inj hit)
  | some found => exact InRange.pure found

theorem InRange.mapError {ε α : Type} {program : Except ε α} {text : ε → String} :
    InRange (program.mapError fun error => Fault.refused (text error)) := by
  cases program with
  | ok value => exact InRange.pure value
  | error error => exact fun hit => Fault.noConfusion (Except.error.inj hit)

theorem InRange.headerAt {headers : List Header} {i : UInt64} (inside : i.toNat < headers.length) :
    InRange (Obscura.headerAt headers i) := by
  rw [Obscura.headerAt, List.getElem?_eq_getElem inside]
  exact InRange.pure _

theorem SyncChain.readTransfer_inRange : InRange (c.readTransfer V K data) := by
  unfold readTransfer
  refine InRange.reject.bind fun _ started => ?_
  have ours : UInt64.toNat 0 < c.chain.ledger.headers.length :=
    Nat.pos_of_ne_zero (reject_ok.mp started)
  refine (InRange.headerAt ours).bind fun _ _ => ?_
  refine InRange.mapError.bind fun t _ => ?_
  refine InRange.reject.bind fun _ counted => ?_
  have first : UInt64.toNat 0 < t.headers.length :=
    Nat.pos_of_ne_zero fun none => reject_ok.mp counted (Or.inl none)
  refine InRange.reject.bind fun _ _ => ?_
  refine InRange.mapError.bind fun s _ => ?_
  refine (InRange.headerAt first).bind fun _ _ => ?_
  exact InRange.reject.bind fun _ _ => InRange.pure _

theorem succ_toNat {H : UInt64} (below : H ≠ Config.maxHeight) : (H + 1).toNat = H.toNat + 1 := by
  have bound := H.toNat_lt
  have apart : H.toNat ≠ 18_446_744_073_709_551_615 :=
    fun same => below (UInt64.toNat_inj.mp same)
  rw [UInt64.toNat_add]
  exact Nat.mod_eq_of_lt (by change H.toNat + 1 < _; omega)

theorem checkTransfer_inRange (below : s.height ≠ Config.maxHeight) :
    InRange (checkTransfer V K t s) := by
  unfold checkTransfer
  refine InRange.reject.bind fun _ long => ?_
  have inside := Nat.lt_of_not_le (reject_ok.mp long)
  have next := succ_toNat below
  refine (InRange.headerAt (by omega)).bind fun _ _ => ?_
  refine InRange.reject.bind fun _ _ => ?_
  refine InRange.mapError.bind fun _ _ => ?_
  have roots : ∀ hH, InRange (checkPostState V K s hH) := by
    intro hH
    unfold checkPostState
    refine InRange.mapError.bind fun _ _ => ?_
    refine InRange.mapError.bind fun _ _ => ?_
    refine InRange.mapError.bind fun _ _ => ?_
    refine InRange.orReject.bind fun _ _ => ?_
    refine InRange.reject.bind fun _ _ => ?_
    refine InRange.reject.bind fun _ _ => ?_
    refine InRange.reject.bind fun _ _ => ?_
    exact InRange.reject
  refine (roots _).bind fun _ _ => ?_
  refine InRange.reject.bind fun _ _ => ?_
  refine (InRange.headerAt inside).bind fun _ _ => ?_
  exact InRange.reject

/-- What passes the checks restores. -/
theorem checkTransfer_restores (decoded : K.state t.state = .ok s)
    (passed : checkTransfer V K t s = .ok ()) :
    ∃ acc nullAcc pqAcc cmTree, decodeSnapshot V K t.state =
      .ok (s.toSnapshot acc nullAcc pqAcc cmTree) := by
  unfold checkTransfer checkPostState at passed
  simp only [bind_ok, reject_ok, exists_const, mapError_ok] at passed
  obtain ⟨-, hH, -, -, -, -, restored, -⟩ := passed
  obtain ⟨acc, accRead, nullAcc, nullRead, pqAcc, pqRead, -⟩ := restored
  refine ⟨acc, nullAcc, pqAcc,
    (loadEpochIMTState s.cmTree).getD (EpochIMT.new V Config.zkDepth), ?_⟩
  rw [decodeSnapshot, decoded]
  change (Accumulator.restoreState K.unmarshal s.acc >>= _) = _
  rw [accRead]
  change (PQAccum.restoreState s.nullAcc >>= _) = _
  rw [nullRead]
  change (PQAccum.restoreState s.pqAcc >>= _) = _
  rw [pqRead]
  rfl

end Reading

/-! ## The outcome -/

section Outcome

variable {V : Primitives} {K : SnapshotCodec} {c : SyncChain} {data : Bytes}

theorem Chain.indexActiveChain_ledger (c : Chain) : (c.indexActiveChain V).ledger = c.ledger := by
  have kept : ∀ (entries : List (Header × Nat)) (state : Nat × Chain),
      (entries.foldl (indexHeader V) state).2.ledger = state.2.ledger := by
    intro entries
    induction entries with
    | nil => exact fun _ => rfl
    | cons entry entries ih => exact fun state => ih (indexHeader V state entry)
  exact kept c.ledger.headers.zipIdx _

namespace SyncChain

theorem verifyTransfer_ok {t : TransferSnapshot} {s : ChainSnapshot} :
    c.verifyTransfer V K data = .ok (t, s) ↔
      c.readTransfer V K data = .ok (t, s) ∧ checkTransfer V K t s = .ok () := by
  unfold verifyTransfer
  simp only [bind_ok, pure_ok, Prod.exists, Prod.mk.injEq]
  constructor
  · rintro ⟨t, s, read, _, passed, rfl, rfl⟩
    exact ⟨read, passed⟩
  · rintro ⟨read, passed⟩
    exact ⟨t, s, read, (), passed, rfl, rfl⟩

/-- **The two ways an import ends.** The checks fail and nothing has changed, or they pass and
the state becomes what the snapshot stands for, with the members in the disk sets. -/
theorem verifyAndImportSnapshot_cases :
    (∃ fault, c.verifyTransfer V K data = .error fault ∧
        c.verifyAndImportSnapshot V K data = (.error fault, c)) ∨
      ∃ t s acc nullAcc pqAcc cmTree, c.verifyTransfer V K data = .ok (t, s) ∧
        (c.verifyAndImportSnapshot V K data).1 = .ok s.height ∧
        (⟨(c.verifyAndImportSnapshot V K data).2.chain.ledger, c.srCache,
            (c.verifyAndImportSnapshot V K data).2.srCacheOK⟩ : RootedLedger) =
          RootedLedger.importSnapshot V ⟨c.chain.ledger, c.srCache, c.srCacheOK⟩ t.spentMembers
            t.tagsMembers t.outPrimeMembers (s.toSnapshot acc nullAcc pqAcc cmTree) := by
  unfold verifyAndImportSnapshot
  cases checked : c.verifyTransfer V K data with
  | error fault => exact Or.inl ⟨fault, rfl, rfl⟩
  | ok passed =>
    obtain ⟨t, s⟩ := passed
    obtain ⟨read, transfer⟩ := verifyTransfer_ok.mp checked
    obtain ⟨acc, nullAcc, pqAcc, cmTree, restored⟩ :=
      checkTransfer_restores (readTransfer_spec read).2.2 transfer
    refine Or.inr ⟨t, s, acc, nullAcc, pqAcc, cmTree, rfl, ?_⟩
    dsimp only
    unfold restoreSnapshotLocked
    rw [restored]
    refine ⟨rfl, ?_⟩
    dsimp only
    rw [Chain.indexActiveChain_ledger]
    rfl

/-- The sums of heights an import computes stay below `2 ^ 64`: the one after the height of the
state, and at each header the one after the height of the header before it. -/
def HeightsFit (V : Primitives) (K : SnapshotCodec) (c : SyncChain) (data : Bytes) : Prop :=
  ∀ t s, c.readTransfer V K data = .ok (t, s) → s.height.toNat + 1 < 2 ^ 64 ∧
    ∀ (n : Nat) (prev : Header), (∀ g, t.headers[0]? = some g → g.height = 0) →
      (∀ (i : Nat) (tip h : Header), i < n → t.headers[i]? = some tip →
        t.headers[i + 1]? = some h → verifyHeaderAt V t.headers tip h (i + 1) = .ok ()) →
      t.headers[n]? = some prev → prev.height + 1 < 2 ^ 64

theorem checked_height {headers : List Header} (bound : headers.length ≤ Config.maxSnapshotHeaders)
    {n : Nat} {prev : Header} (start : ∀ g, headers[0]? = some g → g.height = 0)
    (passed : ∀ (i : Nat) (tip h : Header), i < n → headers[i]? = some tip →
      headers[i + 1]? = some h → verifyHeaderAt V headers tip h (i + 1) = .ok ())
    (found : headers[n]? = some prev) : prev.height + 1 < 2 ^ 64 := by
  have within : ∀ i, i ≤ n → (headers.take (n + 1))[i]? = headers[i]? := by
    intro i before
    rw [List.getElem?_take, if_pos (Nat.lt_succ_of_le before)]
  have positions := @heights_eq (headers.take (n + 1))
    (fun g first => start g ((within 0 (Nat.zero_le n)).symm.trans first))
    (fun i tip h below after => by
      have before : i + 1 ≤ n := by
        have inside := (List.getElem?_eq_some_iff.mp after).1
        rw [List.length_take] at inside
        omega
      rw [within i (by omega)] at below
      rw [within (i + 1) before] at after
      have check := passed i tip h before below after
      unfold verifyHeaderAt at check
      simp only [reject_bind_ok] at check
      exact Decidable.not_not.mp check.1)
  have place := positions n prev ((within n le_rfl).trans found)
  have inside := (List.getElem?_eq_some_iff.mp found).1
  have most : headers.length ≤ 50_000_000 := bound
  omega

end SyncChain

end Outcome

open SyncChain

/-- **Snapshot import.** For every node and every input: an import indexes nothing out of range,
computes no height that wraps, and when it fails leaves the node and its disk sets as they were,
exactly when the transfer that is read, if one is, does not state the largest height. A count of
leaves or peaks that no memory holds makes the runtime fail where the model runs out of input;
nothing was indexed or changed by then. -/
theorem import_sound_iff (V : Primitives) (K : SnapshotCodec) (c : SyncChain) (data : Bytes) :
    ((c.verifyAndImportSnapshot V K data).1 ≠ .error .outOfRange ∧ HeightsFit V K c data ∧
      ∀ fault, (c.verifyAndImportSnapshot V K data).1 = .error fault →
        (c.verifyAndImportSnapshot V K data).2 = c) ↔
    ∀ t s, c.readTransfer V K data = .ok (t, s) → s.height ≠ Config.maxHeight := by
  constructor
  case mp =>
    rintro ⟨-, fit, -⟩ t s read largest
    have small := (fit t s read).1
    rw [largest] at small
    exact absurd small (by decide)
  case mpr =>
    intro below
    refine ⟨?_, ?_, ?_⟩
    · rcases @verifyAndImportSnapshot_cases V K c data with
        ⟨fault, failed, outcome⟩ | ⟨t, s, _, _, _, _, _, done, _⟩
      · rw [outcome]
        intro hit
        have checks : InRange (c.verifyTransfer V K data) := by
          unfold verifyTransfer
          refine readTransfer_inRange.bind fun (t, s) read => ?_
          exact (checkTransfer_inRange (below t s read)).bind fun _ _ => InRange.pure _
        exact checks (failed.trans (congrArg Except.error (Except.error.inj hit)))
      · rw [done]
        exact fun hit => nomatch hit
    · intro t s read
      refine ⟨?_, fun n prev start passed found => ?_⟩
      · have next := succ_toNat (below t s read)
        rw [← next]
        exact (s.height + 1).toNat_lt
      · exact checked_height (readTransfer_spec read).2.1 start passed found
    · intro fault failed
      rcases @verifyAndImportSnapshot_cases V K c data with
        ⟨fault, -, outcome⟩ | ⟨t, s, _, _, _, _, _, done, _⟩
      · rw [outcome]
      · exact nomatch done.symm.trans failed

/-! ## The largest height -/

namespace Testnet

/-- A node after genesis. -/
def started : SyncChain where
  chain := { ledger := genesisLedger plain }

/-- A transfer with our genesis and the largest height. -/
def farTransfer : TransferSnapshot where
  headers := [genesisHeader plain]

/-- Decoders that give that transfer. -/
def farCodec : SnapshotCodec where
  transfer _ := .ok farTransfer
  state _ := .ok { height := Config.maxHeight }
  unmarshal := .ok

end Testnet

/-- The length check passes with the wrapped sum, and the index is out of range. -/
theorem largest_height_outOfRange :
    (Testnet.started.verifyAndImportSnapshot Testnet.plain Testnet.farCodec []).1 =
      .error .outOfRange := by
  set_option maxRecDepth 30000 in
  decide

end Obscura
