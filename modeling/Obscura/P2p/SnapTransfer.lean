import Mathlib.Data.Multiset.Dedup
import Mathlib.Data.Finset.Card
import Obscura.Config
import Obscura.Lib.Wire

/-! # Reassembly of a snapshot transfer

A node far behind a peer asks it for a snapshot and reassembles the chunks it gets
back. A chunk names its index and the number of chunks, and a transfer is told apart
by its peer and that number alone; a transfer is complete when it has counted as many
chunks as it expects. Over every run, what is handed to the import is an export of
the peer exactly when the chunks the transfer took are all of that export, and every
index has been received exactly when no index was taken again after an empty chunk.
-/

namespace Obscura.P2p

open Wire

/-- The largest message of the wire. -/
def maxMsgBytes : Nat := Config.maxBlockBytes + 4096

/-- The largest chunk. -/
def snapChunkSize : Nat := maxMsgBytes - 64

/-- The most chunks of a snapshot. -/
def snapMaxChunks : Nat := 8192

/-- The largest snapshot. -/
def snapMaxBytes : Nat := 2 ^ 30

/-- Ninety seconds, in nanoseconds. -/
def snapXferTimeout : Int := 90 * 1000000000

/-- The reassembly in flight. `sender` is the remote address the snapshot was requested
from, `total` is zero until the first chunk sets it, and a chunk that is still nil is
the empty list, which an empty chunk is stored as too. -/
structure SnapXfer where
  sender : String
  total : Nat := 0
  height : Nat := 0
  chunks : List Bytes := []
  got : Nat := 0
  bytes : Nat := 0
  deadline : Int
deriving DecidableEq, Repr

/-! ## Requesting and serving -/

/-- The transfer after a peer's tip, and whether a snapshot is requested from the peer.
The clock is read at `now` for the test and at `later` for the deadline. -/
def maybeRequestSnapshot (snapSyncGap : UInt64) (remote : String) (peerH ourH : UInt64)
    (now later : Int) (current : Option SnapXfer) : Option SnapXfer × Bool :=
  if peerH ≤ ourH + snapSyncGap then
    (current, false)
  else if current.any (fun x => now < x.deadline) then
    (current, false)
  else
    (some { sender := remote, deadline := later + snapXferTimeout }, true)

/-- The chunks that a snapshot is cut into. -/
def chunkCount (data : Bytes) : Nat := (data.length + snapChunkSize - 1) / snapChunkSize

/-- The chunk of an index, cut at the end of the snapshot. -/
def chunkAt (data : Bytes) (i : Nat) : Bytes :=
  let lo := i * snapChunkSize
  let hi := if lo + snapChunkSize > data.length then data.length else lo + snapChunkSize
  (data.take hi).drop lo

/-- The sixteen bytes in front of a chunk. -/
def snapHeader (i total height : Nat) : Bytes :=
  bigEndian 4 i ++ bigEndian 4 total ++ bigEndian 8 height

/-- The messages that a served export is streamed as; none without an export. -/
def serveSnapshot (exported : Option (Bytes × UInt64)) : List Bytes :=
  match exported with
  | none => []
  | some (data, height) =>
    if data.length = 0 then
      []
    else
      let total := chunkCount data
      if total = 0 ∨ total > snapMaxChunks then
        []
      else
        (List.range total).map fun i => snapHeader i total height.toNat ++ chunkAt data i

/-! ## Receiving -/

/-- The index that a message names. -/
def seqOf (payload : Bytes) : Nat := ofBigEndian (payload.take 4)

/-- The number of chunks that a message names. -/
def totalOf (payload : Bytes) : Nat := ofBigEndian ((payload.drop 4).take 4)

/-- The height that a message names. -/
def heightOf (payload : Bytes) : Nat := ofBigEndian ((payload.drop 8).take 8)

/-- The chunk that a message carries. -/
def chunkOf (payload : Bytes) : Bytes := payload.drop 16

/-- The first chunk of a transfer sets the number of chunks and the height. -/
def SnapXfer.started (x : SnapXfer) (total height : Nat) : SnapXfer :=
  if x.total = 0 then
    { x with total := total, height := height, chunks := List.replicate total [] }
  else
    x

/-- Whether nothing has been stored under an index; an empty chunk is stored as nothing. -/
def SnapXfer.vacant (x : SnapXfer) (seq : Nat) : Bool := (x.chunks.getD seq []).isEmpty

/-- A chunk under its index, with its bytes and itself counted. -/
def SnapXfer.store (x : SnapXfer) (seq : Nat) (chunk : Bytes) : SnapXfer :=
  { x with
    bytes := x.bytes + chunk.length
    chunks := x.chunks.set seq chunk
    got := x.got + 1 }

/-- A transfer that has counted all its chunks ends, and its bytes go to the import. -/
def SnapXfer.finish (x : SnapXfer) : Option SnapXfer × Option Bytes :=
  if x.got = x.total then (none, some x.chunks.flatten) else (some x, none)

/-- The transfer after a chunk, and the bytes handed to the import, if any. -/
def recvSnapshotChunk (remote : String) (payload : Bytes) (now : Int)
    (current : Option SnapXfer) : Option SnapXfer × Option Bytes :=
  if payload.length < 16 then
    (current, none)
  else
    let seq := seqOf payload
    let total := totalOf payload
    match current with
    | none => (none, none)
    | some x =>
      if x.sender ≠ remote ∨ x.deadline < now then
        (some x, none)
      else if total = 0 ∨ total > snapMaxChunks ∨ seq ≥ total then
        (some x, none)
      else
        let x := x.started total (heightOf payload)
        if x.total ≠ total then
          (some x, none)
        else if x.vacant seq then
          if x.bytes + (chunkOf payload).length > snapMaxBytes then
            (none, none)
          else
            (x.store seq (chunkOf payload)).finish
        else
          x.finish

/-! ## Runs -/

/-- What a syncing node reacts to. -/
inductive SnapEvent
  | tip (remote : String) (peerH ourH : UInt64) (now later : Int)
  | chunk (remote : String) (payload : Bytes) (now : Int)
deriving DecidableEq, Repr

/-- The transfer after an event, with the snapshot that it completes. -/
def snapStep (snapSyncGap : UInt64) (current : Option SnapXfer) :
    SnapEvent → Option SnapXfer × Option Bytes
  | .tip remote peerH ourH now later =>
    ((maybeRequestSnapshot snapSyncGap remote peerH ourH now later current).1, none)
  | .chunk remote payload now => recvSnapshotChunk remote payload now current

/-- The transfer in flight after a history, its newest event first. -/
def snapRun (snapSyncGap : UInt64) : List SnapEvent → Option SnapXfer
  | [] => none
  | event :: earlier => (snapStep snapSyncGap (snapRun snapSyncGap earlier) event).1

/-- Whether the transfer stores the chunk of a message. -/
def SnapXfer.takes (x : SnapXfer) (remote : String) (payload : Bytes) (now : Int) : Bool :=
  16 ≤ payload.length ∧ x.sender = remote ∧ now ≤ x.deadline ∧
    0 < totalOf payload ∧ totalOf payload ≤ snapMaxChunks ∧ seqOf payload < totalOf payload ∧
    (x.total = 0 ∨ x.total = totalOf payload) ∧ x.vacant (seqOf payload)

/-- The messages whose chunks the transfer requested last has taken, the newest first. -/
def taken (snapSyncGap : UInt64) : List SnapEvent → List Bytes
  | [] => []
  | .tip remote peerH ourH now later :: earlier =>
    let current := snapRun snapSyncGap earlier
    if (maybeRequestSnapshot snapSyncGap remote peerH ourH now later current).2 then
      []
    else
      taken snapSyncGap earlier
  | .chunk remote payload now :: earlier =>
    if (snapRun snapSyncGap earlier).any (fun x => x.takes remote payload now) then
      payload :: taken snapSyncGap earlier
    else
      taken snapSyncGap earlier

/-! ## The books of a transfer -/

/-- What a transfer has stored against the messages it took: as many as it counted, all
of its number of chunks, every stored chunk from one of them, every chunk that is not
empty still stored, and only an empty chunk ever replaced. -/
structure Reassembling (x : SnapXfer) (log : List Bytes) : Prop where
  got : x.got = log.length
  length : x.chunks.length = x.total
  placed : ∀ p ∈ log, totalOf p = x.total ∧ seqOf p < x.total
  kept : ∀ p ∈ log, chunkOf p ≠ [] → x.chunks[seqOf p]? = some (chunkOf p)
  replaced : log.Pairwise fun newer older => seqOf newer = seqOf older → chunkOf older = []

theorem Reassembling.fresh (sender : String) (deadline : Int) :
    Reassembling { sender := sender, deadline := deadline } [] where
  got := rfl
  length := rfl
  placed := by simp
  kept := by simp
  replaced := .nil

namespace Reassembling

variable {x : SnapXfer} {log : List Bytes} {remote : String} {payload : Bytes} {now : Int}

theorem empty_of_total (books : Reassembling x log) (unset : x.total = 0) : log = [] := by
  rcases log with _ | ⟨p, rest⟩
  · rfl
  · have below := (books.placed p (by simp)).2
    omega

theorem empty_of_vacant (books : Reassembling x log) {p : Bytes} (took : p ∈ log)
    (vacant : x.vacant (seqOf p)) : chunkOf p = [] := by
  by_contra stored
  have slot := books.kept p took stored
  rw [SnapXfer.vacant, List.getD_eq_getElem?_getD, slot] at vacant
  exact stored (List.isEmpty_iff.mp vacant)

theorem started (books : Reassembling x log) (total height : Nat) :
    Reassembling (x.started total height) log := by
  unfold SnapXfer.started
  split
  · next unset =>
      have none := books.empty_of_total unset
      subst none
      exact ⟨books.got, List.length_replicate, by simp, by simp, .nil⟩
  · exact books

/-- A chunk that is new keeps the books. -/
theorem store (books : Reassembling x log) (total : x.total = totalOf payload)
    (below : seqOf payload < totalOf payload) (vacant : x.vacant (seqOf payload)) :
    Reassembling (x.store (seqOf payload) (chunkOf payload)) (payload :: log) where
  got := congrArg (· + 1) books.got
  length := List.length_set.trans books.length
  placed := by
    intro p took
    rcases List.mem_cons.mp took with rfl | earlier
    · exact ⟨total.symm, total ▸ below⟩
    · exact books.placed p earlier
  kept := by
    intro p took stored
    have inside : seqOf payload < x.chunks.length := by rw [books.length, total]; exact below
    rcases List.mem_cons.mp took with rfl | earlier
    · simp [SnapXfer.store, inside]
    · by_cases same : seqOf p = seqOf payload
      · exact absurd (books.empty_of_vacant earlier (same ▸ vacant)) stored
      · simpa [SnapXfer.store, List.getElem?_set_ne (Ne.symm same)] using
          books.kept p earlier stored
  replaced := by
    refine List.pairwise_cons.mpr ⟨fun older earlier same => ?_, books.replaced⟩
    exact books.empty_of_vacant earlier (same ▸ vacant)

end Reassembling

/-- A transfer in flight after a history: its books, the chunks that its count still
misses, and the messages it took among those its peer sent. -/
structure InFlight (x : SnapXfer) (history : List SnapEvent) (log : List Bytes) : Prop where
  books : Reassembling x log
  missing : x.total ≠ 0 → x.got ≠ x.total
  heard : ∀ p ∈ log, ∃ time, .chunk x.sender p time ∈ history

theorem SnapXfer.takes_iff {x : SnapXfer} {remote : String} {payload : Bytes} {now : Int} :
    x.takes remote payload now ↔
      16 ≤ payload.length ∧ x.sender = remote ∧ now ≤ x.deadline ∧ 0 < totalOf payload ∧
        totalOf payload ≤ snapMaxChunks ∧ seqOf payload < totalOf payload ∧
        (x.total = 0 ∨ x.total = totalOf payload) ∧ x.vacant (seqOf payload) := by
  simp only [SnapXfer.takes, decide_eq_true_eq]

theorem SnapXfer.vacant_started {x : SnapXfer} {log : List Bytes} (books : Reassembling x log)
    (total height seq : Nat) : (x.started total height).vacant seq = x.vacant seq := by
  unfold SnapXfer.started
  split
  · next unset =>
      have none : x.chunks = [] := List.length_eq_zero_iff.mp (books.length.trans unset)
      simp only [SnapXfer.vacant, none, List.getD_eq_getElem?_getD, List.getElem?_replicate]
      split <;> rfl
  · rfl

theorem SnapXfer.total_started {x : SnapXfer} {total : Nat}
    (compatible : x.total = 0 ∨ x.total = total) (height : Nat) :
    (x.started total height).total = total := by
  unfold SnapXfer.started
  split
  · rfl
  · next set => exact compatible.resolve_left set

/-- The transfer that has just taken a message of its peer. -/
structure InFlight.Taken (remote : String) (payload : Bytes) (history : List SnapEvent)
    (log : List Bytes) (z : SnapXfer) : Prop where
  books : Reassembling z log
  total : z.total = totalOf payload
  positive : 0 < z.total
  sender : z.sender = remote
  heard : ∀ p ∈ log, ∃ time, .chunk remote p time ∈ history

theorem SnapXfer.sender_started (x : SnapXfer) (total height : Nat) :
    (x.started total height).sender = x.sender := by
  unfold SnapXfer.started
  split <;> rfl

/-- What a chunk does to a transfer in flight: nothing, or it is taken, and then the
transfer is given up, handed over or kept. -/
theorem recv_cases {x : SnapXfer} {history : List SnapEvent} {log : List Bytes}
    (flight : InFlight x history log) (remote : String) (payload : Bytes) (now : Int) :
    (x.takes remote payload now = false ∧
      recvSnapshotChunk remote payload now (some x) = (some x, none)) ∨
    (x.takes remote payload now ∧ ∃ z,
      InFlight.Taken remote payload (.chunk remote payload now :: history) (payload :: log) z ∧
      (recvSnapshotChunk remote payload now (some x) = (none, none) ∨
        recvSnapshotChunk remote payload now (some x) = z.finish)) := by
  obtain ⟨books, missing, heard⟩ := flight
  by_cases takes : x.takes remote payload now
  · refine .inr ⟨takes, ?_⟩
    obtain ⟨long, sender, time, positive, few, below, compatible, vacant⟩ :=
      SnapXfer.takes_iff.mp takes
    have total := x.total_started compatible (heightOf payload)
    have free := (x.vacant_started books (totalOf payload) (heightOf payload) (seqOf payload)).trans
      vacant
    refine ⟨(x.started (totalOf payload) (heightOf payload)).store (seqOf payload)
      (chunkOf payload), ⟨(books.started _ _).store total below free, total,
        total.symm ▸ positive, (x.sender_started _ _).trans sender, ?_⟩, ?_⟩
    · intro p took
      rcases List.mem_cons.mp took with rfl | before
      · exact ⟨now, by simp⟩
      · obtain ⟨time, event⟩ := heard p before
        exact ⟨time, List.mem_cons_of_mem _ (sender ▸ event)⟩
    simp only [recvSnapshotChunk, Nat.not_lt.mpr long, sender, Int.not_lt.mpr time, total, free,
      Nat.ne_of_gt positive, Nat.not_lt.mpr few, Nat.not_le.mpr below, ne_eq, not_true_eq_false,
      or_self, ↓reduceIte, gt_iff_lt]
    split
    · exact .inl rfl
    · exact .inr rfl
  · refine .inl ⟨by simpa using takes, ?_⟩
    rw [SnapXfer.takes_iff] at takes
    simp only [recvSnapshotChunk]
    split
    · rfl
    · next long =>
        split
        · rfl
        · next heard =>
            split
            · rfl
            · next sane =>
                split
                · next differ =>
                    have set : x.total ≠ 0 := by
                      intro unset
                      simp only [SnapXfer.started, unset, ↓reduceIte, ne_eq,
                        not_true_eq_false] at differ
                    simp only [SnapXfer.started, set, ↓reduceIte]
                · next agree =>
                    rw [not_or, not_not, Int.not_lt] at heard
                    have compatible : x.total = 0 ∨ x.total = totalOf payload := by
                      by_cases unset : x.total = 0
                      · exact .inl unset
                      · simp only [SnapXfer.started, unset, ↓reduceIte, not_not] at agree
                        exact .inr agree
                    have occupied : ¬ x.vacant (seqOf payload) := by
                      intro vacant
                      exact takes ⟨by omega, heard.1, heard.2, by omega, by omega, by omega,
                        compatible, vacant⟩
                    have set : x.total ≠ 0 := by
                      intro unset
                      have none : x.chunks = [] :=
                        List.length_eq_zero_iff.mp (books.length.trans unset)
                      simp [SnapXfer.vacant, none] at occupied
                    have same : x.started (totalOf payload) (heightOf payload) = x := by
                      simp only [SnapXfer.started, set, ↓reduceIte]
                    simp only [same, occupied, ↓reduceIte, SnapXfer.finish, missing set,
                      Bool.false_eq_true]

theorem InFlight.later {x : SnapXfer} {history : List SnapEvent} {log : List Bytes}
    (flight : InFlight x history log) (event : SnapEvent) : InFlight x (event :: history) log where
  books := flight.books
  missing := flight.missing
  heard p took := (flight.heard p took).imp fun _ sent => List.mem_cons_of_mem _ sent

theorem request_cases (snapSyncGap : UInt64) (remote : String) (peerH ourH : UInt64)
    (now later : Int) (current : Option SnapXfer) :
    maybeRequestSnapshot snapSyncGap remote peerH ourH now later current = (current, false) ∨
      maybeRequestSnapshot snapSyncGap remote peerH ourH now later current =
        (some { sender := remote, deadline := later + snapXferTimeout }, true) := by
  unfold maybeRequestSnapshot
  split
  · exact .inl rfl
  · split
    · exact .inl rfl
    · exact .inr rfl

/-- The books hold of the transfer in flight after every history. -/
theorem run_inFlight (snapSyncGap : UInt64) (history : List SnapEvent) :
    ∀ x, snapRun snapSyncGap history = some x →
      InFlight x history (taken snapSyncGap history) := by
  induction history with
  | nil => intro x running; cases running
  | cons event earlier ih =>
    intro x running
    cases event with
    | tip remote peerH ourH now later =>
      simp only [snapRun, snapStep, taken] at running ⊢
      rcases request_cases snapSyncGap remote peerH ourH now later
        (snapRun snapSyncGap earlier) with same | fresh
      · rw [same] at running ⊢
        exact (ih x running).later _
      · rw [fresh] at running ⊢
        obtain rfl := Option.some.inj running
        exact ⟨.fresh remote _, fun set => absurd rfl set, by simp⟩
    | chunk remote payload now =>
      cases before : snapRun snapSyncGap earlier with
      | none =>
        simp only [snapRun, snapStep, before, recvSnapshotChunk, ite_self] at running
        cases running
      | some y =>
        simp only [snapRun, snapStep, taken, before, Option.any_some] at running ⊢
        rcases recv_cases (ih y before) remote payload now with
          ⟨ignored, same⟩ | ⟨takes, z, took, given | finished⟩
        · rw [same] at running
          obtain rfl := Option.some.inj running
          simpa only [ignored, Bool.false_eq_true, ↓reduceIte] using (ih _ before).later _
        · rw [given] at running
          cases running
        · rw [finished, SnapXfer.finish] at running
          split at running
          · cases running
          · next missing =>
              obtain rfl := Option.some.inj running
              simp only [takes, ↓reduceIte]
              exact ⟨took.books, fun _ => missing, took.sender ▸ took.heard⟩

theorem handed_cases {snapSyncGap : UInt64} {earlier : List SnapEvent} {remote : String}
    {payload : Bytes} {now : Int} {bytes : Bytes}
    (handed : (recvSnapshotChunk remote payload now (snapRun snapSyncGap earlier)).2 =
      some bytes) :
    ∃ z, InFlight.Taken remote payload (.chunk remote payload now :: earlier)
        (taken snapSyncGap (.chunk remote payload now :: earlier)) z ∧
      z.got = z.total ∧ bytes = z.chunks.flatten := by
  cases before : snapRun snapSyncGap earlier with
  | none =>
    rw [before] at handed
    simp only [recvSnapshotChunk, ite_self] at handed
    cases handed
  | some y =>
    rw [before] at handed
    simp only [taken, before, Option.any_some]
    rcases recv_cases (run_inFlight snapSyncGap earlier y before) remote payload now with
      ⟨_, same⟩ | ⟨takes, z, took, given | finished⟩
    · rw [same] at handed
      cases handed
    · rw [given] at handed
      cases handed
    · rw [finished, SnapXfer.finish] at handed
      split at handed
      · next counted =>
          refine ⟨z, ?_, counted, (Option.some.inj handed).symm⟩
          simpa only [takes, ↓reduceIte] using took
      · cases handed

/-! ## Every index -/

theorem Reassembling.every_iff {x : SnapXfer} {log : List Bytes} (books : Reassembling x log)
    (counted : x.got = x.total) :
    (∀ i < x.total, ∃ p ∈ log, seqOf p = i) ↔
      log.Pairwise fun newer older => seqOf newer = seqOf older → chunkOf older ≠ [] := by
  have length : (log.map seqOf).length = x.total := by
    rw [List.length_map, ← books.got, counted]
  have within : (log.map seqOf).toFinset ⊆ Finset.range x.total := by
    intro i found
    obtain ⟨p, took, rfl⟩ := List.mem_map.mp (List.mem_toFinset.mp found)
    exact Finset.mem_range.mpr (books.placed p took).2
  have distinct : (log.map seqOf).Nodup ↔
      log.Pairwise fun newer older => seqOf newer = seqOf older → chunkOf older ≠ [] := by
    rw [List.Nodup, List.pairwise_map]
    constructor
    · exact fun apart => apart.imp fun differ same => absurd same differ
    · intro filled
      refine (filled.and books.replaced).imp ?_
      exact fun both same => both.1 same (both.2 same)
  rw [← distinct]
  constructor
  · intro every
    have all : Finset.range x.total ⊆ (log.map seqOf).toFinset := by
      intro i below
      obtain ⟨p, took, rfl⟩ := every i (Finset.mem_range.mp below)
      exact List.mem_toFinset.mpr (List.mem_map_of_mem took)
    have card : (log.map seqOf).toFinset.card = (log.map seqOf).length := by
      rw [Finset.Subset.antisymm within all, Finset.card_range, length]
    exact Multiset.coe_nodup.mp (Multiset.toFinset_card_eq_card_iff_nodup.mp card)
  · intro apart i below
    have card : (Finset.range x.total).card ≤ (log.map seqOf).toFinset.card := by
      rw [List.toFinset_card_of_nodup apart, length, Finset.card_range]
    have found : i ∈ (log.map seqOf).toFinset := by
      rw [Finset.eq_of_subset_of_card_le within card]
      exact Finset.mem_range.mpr below
    obtain ⟨p, took, place⟩ := List.mem_map.mp (List.mem_toFinset.mp found)
    exact ⟨p, took, place⟩

/-! ## The chunks of an export -/

theorem snapChunkSize_pos : 0 < snapChunkSize := by decide

theorem chunkAt_eq (data : Bytes) (i : Nat) :
    chunkAt data i = (data.drop (i * snapChunkSize)).take snapChunkSize := by
  unfold chunkAt
  simp only [gt_iff_lt]
  split
  · next short =>
      rw [List.take_length, List.take_of_length_le]
      rw [List.length_drop]
      omega
  · rw [List.drop_take, Nat.add_sub_cancel_left]

theorem flatten_chunks (data : Bytes) (count : Nat) :
    ((List.range count).map (chunkAt data)).flatten = data.take (count * snapChunkSize) := by
  induction count with
  | zero => simp
  | succ count ih =>
    rw [List.range_succ, List.map_append, List.flatten_append, ih, Nat.succ_mul, List.take_add]
    simp [chunkAt_eq]

theorem length_le_chunkCount (data : Bytes) :
    data.length ≤ chunkCount data * snapChunkSize := by
  have whole := Nat.div_add_mod (data.length + snapChunkSize - 1) snapChunkSize
  have rest := Nat.mod_lt (data.length + snapChunkSize - 1) snapChunkSize_pos
  rw [chunkCount, Nat.mul_comm]
  omega

theorem index_lt_length {data : Bytes} {i : Nat} (below : i < chunkCount data) :
    i * snapChunkSize < data.length := by
  have whole := Nat.div_mul_le_self (data.length + snapChunkSize - 1) snapChunkSize
  have step : (i + 1) * snapChunkSize ≤ chunkCount data * snapChunkSize :=
    Nat.mul_le_mul_right _ below
  have positive := snapChunkSize_pos
  rw [Nat.succ_mul] at step
  rw [chunkCount] at step
  omega

theorem length_chunkAt {data : Bytes} {i : Nat} (below : i < chunkCount data) :
    0 < (chunkAt data i).length ∧ (chunkAt data i).length ≤ snapChunkSize ∧
      (i + 1 < chunkCount data → (chunkAt data i).length = snapChunkSize) := by
  have inside := index_lt_length below
  have positive := snapChunkSize_pos
  rw [chunkAt_eq, List.length_take, List.length_drop]
  refine ⟨by omega, by omega, fun next => ?_⟩
  have more := index_lt_length next
  rw [Nat.succ_mul] at more
  omega

theorem cut_flatten (size : Nat) (chunks : List Bytes)
    (cut : ∀ i chunk, chunks[i]? = some chunk → 0 < chunk.length ∧ chunk.length ≤ size ∧
      (i + 1 < chunks.length → chunk.length = size)) :
    chunks.flatten.length ≤ chunks.length * size ∧
      (0 < size → chunks.length * size < chunks.flatten.length + size) ∧
      ∀ i chunk, chunks[i]? = some chunk → (chunks.flatten.drop (i * size)).take size = chunk := by
  induction chunks with
  | nil => simp
  | cons first rest ih =>
    obtain ⟨nonempty, fits, full⟩ := cut 0 first rfl
    obtain ⟨most, least, place⟩ := ih fun i chunk found =>
      ⟨(cut (i + 1) chunk found).1, (cut (i + 1) chunk found).2.1,
        fun more => (cut (i + 1) chunk found).2.2 (by simpa using more)⟩
    rcases rest with _ | ⟨second, others⟩
    · refine ⟨by simpa using fits, fun _ => by simpa using nonempty, ?_⟩
      intro i chunk found
      rcases i with _ | i
      · obtain rfl := Option.some.inj found
        simpa using List.take_of_length_le fits
      · simp at found
    · have firstFull := full (by simp)
      rw [List.flatten_cons, List.length_append, List.length_cons, Nat.succ_mul, firstFull]
      refine ⟨by omega, fun positive => by have := least positive; omega, ?_⟩
      intro i chunk found
      rcases i with _ | i
      · obtain rfl := Option.some.inj found
        rw [Nat.zero_mul, List.drop_zero, List.take_left' firstFull]
      · rw [Nat.succ_mul, Nat.add_comm, ← List.drop_drop, List.drop_left' firstFull]
        exact place i chunk found

section Header

variable {i total height : Nat} (chunk : Bytes)

theorem seqOf_message (small : i < 2 ^ 32) : seqOf (snapHeader i total height ++ chunk) = i := by
  rw [seqOf, snapHeader, List.append_assoc, List.append_assoc,
    List.take_left' (length_bigEndian 4 i), ofBigEndian_bigEndian]
  exact Nat.mod_eq_of_lt (by simpa using small)

theorem totalOf_message (small : total < 2 ^ 32) :
    totalOf (snapHeader i total height ++ chunk) = total := by
  rw [totalOf, snapHeader, List.append_assoc, List.append_assoc,
    List.drop_left' (length_bigEndian 4 i), List.take_left' (length_bigEndian 4 total),
    ofBigEndian_bigEndian]
  exact Nat.mod_eq_of_lt (by simpa using small)

theorem length_snapHeader (i total height : Nat) : (snapHeader i total height).length = 16 := by
  simp [snapHeader]

theorem chunkOf_message : chunkOf (snapHeader i total height ++ chunk) = chunk :=
  List.drop_left' (length_snapHeader i total height)

end Header

/-- A message whose index, number of chunks and chunk are those of a message of an export. -/
def ChunkOfExport (data p : Bytes) : Prop :=
  totalOf p = chunkCount data ∧ chunkOf p = chunkAt data (seqOf p)

theorem mem_serveSnapshot {data p : Bytes} {height : UInt64}
    (served : p ∈ serveSnapshot (some (data, height))) :
    seqOf p < chunkCount data ∧ ChunkOfExport data p := by
  simp only [serveSnapshot] at served
  split at served
  · cases served
  · split at served
    · cases served
    · next few =>
        obtain ⟨i, below, rfl⟩ := List.mem_map.mp served
        rw [List.mem_range] at below
        rw [snapMaxChunks] at few
        have seq : seqOf (snapHeader i (chunkCount data) height.toNat ++ chunkAt data i) = i :=
          seqOf_message _ (by omega)
        refine ⟨by rw [seq]; exact below, totalOf_message _ (by omega), ?_⟩
        rw [chunkOf_message, seq]

/-! ## What is handed over -/

/-- The books of a complete transfer whose messages are all those of exports of its peer. -/
structure FromExports (z : SnapXfer) (log : List Bytes) : Prop where
  books : Reassembling z log
  counted : z.got = z.total
  exported : ∀ p ∈ log, ∃ data, seqOf p < chunkCount data ∧ ChunkOfExport data p

namespace FromExports

variable {z : SnapXfer} {log : List Bytes} {data : Bytes}

theorem nonempty (whole : FromExports z log) : ∀ p ∈ log, chunkOf p ≠ [] := by
  intro p took
  obtain ⟨source, below, _, chunk⟩ := whole.exported p took
  rw [chunk]
  exact List.ne_nil_of_length_pos (length_chunkAt below).1

theorem stored (whole : FromExports z log) {i : Nat} (below : i < z.total) :
    ∃ p ∈ log, seqOf p = i ∧ z.chunks[i]? = some (chunkOf p) := by
  have filled : log.Pairwise fun newer older => seqOf newer = seqOf older → chunkOf older ≠ [] :=
    List.Pairwise.imp_of_mem (fun _ older _ _ => whole.nonempty _ older)
      (List.pairwise_of_forall fun _ _ => trivial)
  obtain ⟨p, took, rfl⟩ := (whole.books.every_iff whole.counted).mpr filled i below
  exact ⟨p, took, rfl, whole.books.kept p took (whole.nonempty p took)⟩

/-- Chunks of one snapshot make up the snapshot. -/
theorem flatten_of_export (whole : FromExports z log) (positive : 0 < z.total)
    (one : ∀ p ∈ log, ChunkOfExport data p) : z.chunks.flatten = data := by
  have count : z.total = chunkCount data := by
    obtain ⟨p, took, _⟩ := whole.stored positive
    exact (whole.books.placed p took).1.symm.trans (one p took).1
  have chunks : z.chunks = (List.range (chunkCount data)).map (chunkAt data) := by
    refine List.ext_getElem? fun i => ?_
    by_cases below : i < z.total
    · obtain ⟨p, took, rfl, place⟩ := whole.stored below
      rw [place, List.getElem?_map, List.getElem?_range (count ▸ below), (one p took).2]
      rfl
    · rw [List.getElem?_eq_none (by rw [whole.books.length]; omega),
        List.getElem?_eq_none (by simp; omega)]
  rw [chunks, flatten_chunks, List.take_of_length_le (length_le_chunkCount data)]

/-- What makes up a snapshot are its chunks. -/
theorem export_of_flatten (whole : FromExports z log) (same : z.chunks.flatten = data) :
    ∀ p ∈ log, ChunkOfExport data p := by
  have length := whole.books.length
  have cut := cut_flatten snapChunkSize z.chunks ?_
  · obtain ⟨most, least, place⟩ := cut
    have count : chunkCount data = z.total := by
      have lower := least snapChunkSize_pos
      rw [same, length] at most lower
      refine Nat.div_eq_of_lt_le (by omega) ?_
      rw [Nat.succ_mul]
      have := snapChunkSize_pos
      omega
    intro p took
    have placed := whole.books.placed p took
    refine ⟨placed.1.trans count.symm, ?_⟩
    rw [chunkAt_eq, ← same]
    exact (place _ _ (whole.books.kept p took (whole.nonempty p took))).symm
  · intro i chunk found
    have below : i < z.total := by
      rw [← length]
      exact (List.getElem?_eq_some_iff.mp found).1
    obtain ⟨p, took, rfl, place⟩ := whole.stored below
    obtain ⟨source, inside, total, chunkEq⟩ := whole.exported p took
    rw [place] at found
    obtain rfl := Option.some.inj found
    obtain ⟨nonempty, fits, full⟩ := length_chunkAt inside
    rw [← chunkEq] at nonempty fits full
    refine ⟨nonempty, fits, fun more => full ?_⟩
    rw [← total, (whole.books.placed p took).1, ← length]
    exact more

end FromExports

/-- A history in which every chunk from a peer is a message of one of its exports. -/
def HonestPeer (exports : List (Bytes × UInt64)) (remote : String) (history : List SnapEvent) :
    Prop :=
  ∀ p time, .chunk remote p time ∈ history →
    ∃ exported ∈ exports, p ∈ serveSnapshot (some exported)

theorem InFlight.Taken.fromExports {exports : List (Bytes × UInt64)} {remote : String}
    {payload : Bytes} {history : List SnapEvent} {log : List Bytes} {z : SnapXfer}
    (took : InFlight.Taken remote payload history log z) (counted : z.got = z.total)
    (honest : HonestPeer exports remote history) : FromExports z log where
  books := took.books
  counted := counted
  exported p inLog := by
    obtain ⟨time, sent⟩ := took.heard p inLog
    obtain ⟨exported, _, served⟩ := honest p time sent
    exact ⟨exported.1, mem_serveSnapshot served⟩

/-- **Reassembly.** Whenever bytes are handed to the import after any history: from an
honest peer they are an export exactly when some export has every chunk that the
transfer took, and from any peer every index below the total has been received exactly
when no chunk was taken at an index after an empty one. -/
theorem reassembly_exact (snapSyncGap : UInt64) (earlier : List SnapEvent) (remote : String)
    (payload : Bytes) (now : Int) (bytes : Bytes)
    (handed : (recvSnapshotChunk remote payload now (snapRun snapSyncGap earlier)).2 =
      some bytes) :
    (∀ exports, HonestPeer exports remote (.chunk remote payload now :: earlier) →
      ((∃ exported ∈ exports, bytes = exported.1) ↔
        ∃ exported ∈ exports,
          ∀ p ∈ taken snapSyncGap (.chunk remote payload now :: earlier),
            ChunkOfExport exported.1 p)) ∧
    ((∀ i < totalOf payload,
        ∃ p ∈ taken snapSyncGap (.chunk remote payload now :: earlier), seqOf p = i) ↔
      (taken snapSyncGap (.chunk remote payload now :: earlier)).Pairwise fun newer older =>
        seqOf newer = seqOf older → chunkOf older ≠ []) := by
  obtain ⟨z, took, counted, rfl⟩ := handed_cases handed
  refine ⟨fun exports honest => ?_, ?_⟩
  · have whole := took.fromExports counted honest
    constructor
    · rintro ⟨exported, member, same⟩
      exact ⟨exported, member, whole.export_of_flatten same⟩
    · rintro ⟨exported, member, one⟩
      exact ⟨exported, member, whole.flatten_of_export took.positive one⟩
  · rw [← took.total]
    exact took.books.every_iff counted

/-! ## Two exports of one length, and an empty chunk sent twice -/

/-- A second request after the first has timed out, with a chunk of either export still
to come: of an export at height 5 that was served in two chunks, the first arrived in
time and the second only now. -/
def overlap (first second : Bytes) : List SnapEvent :=
  [.chunk "peer" (snapHeader 1 2 5 ++ second) 101000000000,
    .tip "peer" 1000 0 100000000000 100000000000,
    .chunk "peer" (snapHeader 0 2 5 ++ first) 1000000000,
    .tip "peer" 1000 0 0 0]

/-- The first of two chunks opens the list and is stored. -/
theorem recv_first_of_two {i height : Nat} {chunk : Bytes} {now deadline : Int}
    (fits : chunk.length ≤ snapChunkSize) (index : i < 2) (time : now ≤ deadline) :
    recvSnapshotChunk "peer" (snapHeader i 2 height ++ chunk) now
        (some { sender := "peer", deadline := deadline }) =
      (some
        { sender := "peer"
          total := 2
          height := heightOf (snapHeader i 2 height ++ chunk)
          chunks := [[], []].set i chunk
          got := 1
          bytes := chunk.length
          deadline := deadline }, none) := by
  have seq : seqOf (snapHeader i 2 height ++ chunk) = i := seqOf_message _ (by omega)
  have total : totalOf (snapHeader i 2 height ++ chunk) = 2 := totalOf_message _ (by decide)
  have room : ¬ 0 + chunk.length > snapMaxBytes := by
    have bound : snapChunkSize ≤ snapMaxBytes := by decide
    omega
  have long : ¬ (snapHeader i 2 height ++ chunk).length < 16 := by
    rw [List.length_append, length_snapHeader]
    omega
  have vacant : SnapXfer.vacant
      { sender := "peer", total := 2, height := heightOf (snapHeader i 2 height ++ chunk),
        chunks := List.replicate 2 [], deadline := deadline } i := by
    obtain rfl | rfl : i = 0 ∨ i = 1 := by omega
    · rfl
    · rfl
  simp only [recvSnapshotChunk, seq, total, long, SnapXfer.started, chunkOf_message, ↓reduceIte,
    ne_eq, not_true_eq_false, Int.not_lt.mpr time, or_self, vacant, room]
  simp [snapMaxChunks, Nat.not_le.mpr index, SnapXfer.finish, SnapXfer.store,
    List.replicate_succ]

/-- What the overlap hands on. -/
theorem overlap_handed {first second other : Bytes}
    (firstFits : first.length ≤ snapChunkSize) (secondFits : second.length ≤ snapChunkSize)
    (otherFits : other.length ≤ snapChunkSize) :
    (recvSnapshotChunk "peer" (snapHeader 0 2 6 ++ other) 102000000000
      (snapRun 200 (overlap first second))).2 = some (other ++ second) := by
  have opened : snapRun 200 [.tip "peer" 1000 0 0 0] =
      some { sender := "peer", deadline := 90000000000 } := rfl
  have requested : snapRun 200 [.tip "peer" 1000 0 100000000000 100000000000,
      .chunk "peer" (snapHeader 0 2 5 ++ first) 1000000000, .tip "peer" 1000 0 0 0] =
      some { sender := "peer", deadline := 190000000000 } := by
    rw [snapRun, snapRun, opened, snapStep, snapStep,
      recv_first_of_two firstFits (by decide) (by decide)]
    rfl
  have seq : seqOf (snapHeader 0 2 6 ++ other) = 0 := seqOf_message _ (by decide)
  have total : totalOf (snapHeader 0 2 6 ++ other) = 2 := totalOf_message _ (by decide)
  have long : ¬ (snapHeader 0 2 6 ++ other).length < 16 := by
    rw [List.length_append, length_snapHeader]
    omega
  have room : ¬ second.length + other.length > snapMaxBytes := by
    have bound : snapChunkSize + snapChunkSize ≤ snapMaxBytes := by decide
    omega
  rw [overlap, snapRun, requested, snapStep,
    recv_first_of_two secondFits (by decide) (by decide)]
  simp only [recvSnapshotChunk, seq, total, long, chunkOf_message, ↓reduceIte]
  simp [snapMaxChunks, SnapXfer.started, SnapXfer.vacant, SnapXfer.store, SnapXfer.finish, room]

/-- An export in two chunks, the second of one byte. -/
def twoChunks (byte : UInt8) (height : UInt64) : Bytes × UInt64 :=
  (List.replicate (snapChunkSize + 1) byte, height)

theorem chunkAt_twoChunks (byte : UInt8) (height : UInt64) :
    chunkAt (twoChunks byte height).1 0 = List.replicate snapChunkSize byte ∧
      chunkAt (twoChunks byte height).1 1 = [byte] := by
  constructor
  · rw [chunkAt_eq, twoChunks, Nat.zero_mul, List.drop_zero, List.take_replicate,
      Nat.min_eq_left (Nat.le_succ _)]
  · rw [chunkAt_eq, twoChunks, Nat.one_mul, List.drop_replicate, List.take_replicate,
      Nat.add_sub_cancel_left]
    rfl

/-- The two messages for it. -/
theorem serve_twoChunks (byte : UInt8) (height : UInt64) :
    serveSnapshot (some (twoChunks byte height)) =
      [snapHeader 0 2 height.toNat ++ List.replicate snapChunkSize byte,
        snapHeader 1 2 height.toNat ++ [byte]] := by
  have count : chunkCount (twoChunks byte height).1 = 2 := by
    rw [chunkCount, twoChunks, List.length_replicate]
    decide
  have length : (twoChunks byte height).1.length ≠ 0 := by
    rw [twoChunks, List.length_replicate]
    decide
  obtain ⟨zero, one⟩ := chunkAt_twoChunks byte height
  have shape : serveSnapshot (some (twoChunks byte height)) =
      (List.range 2).map fun i =>
        snapHeader i 2 height.toNat ++ chunkAt (twoChunks byte height).1 i := by
    simp only [serveSnapshot, length, ↓reduceIte, count]
    rfl
  rw [shape, List.range_succ, List.range_one]
  simp [zero, one]

/-- The first of two chunks, taken in time. -/
def firstTaken (first : Bytes) : List SnapEvent :=
  [.chunk "peer" (snapHeader 0 2 5 ++ first) 1000000000, .tip "peer" 1000 0 0 0]

/-- What is handed on when the second chunk comes last. -/
theorem firstTaken_handed {first second : Bytes} (firstFits : first.length ≤ snapChunkSize)
    (secondFits : second.length ≤ snapChunkSize) :
    (recvSnapshotChunk "peer" (snapHeader 1 2 5 ++ second) 2000000000
      (snapRun 200 (firstTaken first))).2 = some (first ++ second) := by
  have opened : snapRun 200 [.tip "peer" 1000 0 0 0] =
      some { sender := "peer", deadline := 90000000000 } := rfl
  have seq : seqOf (snapHeader 1 2 5 ++ second) = 1 := seqOf_message _ (by decide)
  have total : totalOf (snapHeader 1 2 5 ++ second) = 2 := totalOf_message _ (by decide)
  have long : ¬ (snapHeader 1 2 5 ++ second).length < 16 := by
    rw [List.length_append, length_snapHeader]
    omega
  have room : ¬ first.length + second.length > snapMaxBytes := by
    have bound : snapChunkSize + snapChunkSize ≤ snapMaxBytes := by decide
    omega
  rw [firstTaken, snapRun, opened, snapStep, recv_first_of_two firstFits (by decide) (by decide)]
  simp only [recvSnapshotChunk, seq, total, long, chunkOf_message, ↓reduceIte]
  simp [snapMaxChunks, SnapXfer.started, SnapXfer.vacant, SnapXfer.store, SnapXfer.finish, room]

/-- An export that is served in two chunks comes back whole. -/
theorem reassembly_exact_two :
    (∃ exported ∈ [twoChunks 1 5],
        List.replicate snapChunkSize 1 ++ [1] = exported.1) ∧
      ∃ exported ∈ [twoChunks 1 5],
        ∀ p ∈ taken 200 (.chunk "peer" (snapHeader 1 2 5 ++ [1]) 2000000000 ::
          firstTaken (List.replicate snapChunkSize 1)), ChunkOfExport exported.1 p := by
  have both := reassembly_exact 200 (firstTaken (List.replicate snapChunkSize 1)) "peer"
    (snapHeader 1 2 5 ++ [1]) 2000000000 _
    (firstTaken_handed List.length_replicate.le (by decide))
  have whole : ∃ exported ∈ [twoChunks 1 5],
      List.replicate snapChunkSize 1 ++ [1] = exported.1 :=
    ⟨_, List.mem_singleton_self _, List.replicate_succ'.symm⟩
  refine ⟨whole, (both.1 [twoChunks 1 5] ?_).mp whole⟩
  intro p time sent
  refine ⟨twoChunks 1 5, List.mem_singleton_self _, ?_⟩
  rw [serve_twoChunks]
  simp only [firstTaken, List.mem_cons, SnapEvent.chunk.injEq, true_and, reduceCtorEq,
    List.not_mem_nil, or_false] at sent
  rcases sent with ⟨rfl, _⟩ | ⟨rfl, _⟩
  · exact List.mem_cons_of_mem _ List.mem_cons_self
  · exact List.mem_cons_self

/-- With a late chunk of the first export the second one completes into neither of them,
and two empty chunks at index 0 complete a transfer of two. -/
theorem reassembly_mixed :
    (HonestPeer [twoChunks 1 5, twoChunks 2 6] "peer"
        (.chunk "peer" (snapHeader 0 2 6 ++ List.replicate snapChunkSize 2) 102000000000 ::
          overlap (List.replicate snapChunkSize 1) [1]) ∧
      ∃ bytes, (recvSnapshotChunk "peer" (snapHeader 0 2 6 ++ List.replicate snapChunkSize 2)
          102000000000 (snapRun 200 (overlap (List.replicate snapChunkSize 1) [1]))).2 =
            some bytes ∧
        ¬ ∃ exported ∈ [twoChunks 1 5, twoChunks 2 6], bytes = exported.1) ∧
    (recvSnapshotChunk "peer" (snapHeader 0 2 0) 3
        (snapRun 200 [.chunk "peer" (snapHeader 0 2 0) 2, .tip "peer" 1000 0 0 1])).2 =
          some [] ∧
      ∀ p ∈ taken 200 [.chunk "peer" (snapHeader 0 2 0) 3, .chunk "peer" (snapHeader 0 2 0) 2,
        .tip "peer" 1000 0 0 1], seqOf p ≠ 1 := by
  refine ⟨⟨?_, _, overlap_handed ?_ ?_ ?_, ?_⟩, by decide, by decide⟩
  · intro p time sent
    simp only [overlap, List.mem_cons, SnapEvent.chunk.injEq, true_and, reduceCtorEq,
      List.not_mem_nil, or_false, false_or] at sent
    rcases sent with ⟨rfl, _⟩ | ⟨rfl, _⟩ | ⟨rfl, _⟩
    · exact ⟨twoChunks 2 6, by simp, by rw [serve_twoChunks]; simp⟩
    · exact ⟨twoChunks 1 5, by simp, by rw [serve_twoChunks]; simp⟩
    · exact ⟨twoChunks 1 5, by simp, by rw [serve_twoChunks]; simp⟩
  · exact List.length_replicate.le
  · decide
  · exact List.length_replicate.le
  · rintro ⟨exported, member, same⟩
    have start := congrArg (fun bytes : Bytes => bytes[0]?) same
    have final := congrArg (fun bytes : Bytes => bytes[snapChunkSize]?) same
    have positive := snapChunkSize_pos
    simp only [List.mem_cons, List.not_mem_nil, or_false] at member
    rcases member with rfl | rfl
    · rw [twoChunks] at start
      simp [positive] at start
    · rw [twoChunks] at final
      simp at final

end Obscura.P2p
