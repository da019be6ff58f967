import Obscura.Lib.Peaks
import Obscura.Lib.Reader
import Obscura.Testnet

/-! # The two modes of the Merkle accumulator

A streaming accumulator keeps the peaks of its tree, a full one all leaves, and each has its
own state format. However their additions are interleaved with a write and a read of the
state, both have the root and the size of the tree over what was added, and predict the root
after further additions (`streaming_agrees_with_leaves`).
-/

namespace Obscura.PQAccum

open Wire Reader

/-! ## The state format -/

/-- `bytes.Reader.Read` into a buffer: what is left, up to its size; a short read leaves the
end of the buffer at zero. -/
def readInto (size : Nat) : Reader Bytes := fun input =>
  if input = [] then .error "EOF"
  else .ok (input.take size ++ List.replicate (size - input.length) 0, input.drop size)

/-- A word, highest byte first. -/
def readU64 : Reader Nat := do
  let buffer ← readInto 8
  pure (ofBigEndian buffer)

/-- The bytes of a hash. -/
def readHash : Reader Hash := readInto 32

/-- A peak: its size and its hash. -/
def putPeak (peak : Peak) : Bytes := putU64 peak.size ++ peak.hash

/-- A peak, read back. -/
def readPeak : Reader Peak := do
  let size ← readU64
  let hash ← readHash
  pure ⟨hash, size⟩

namespace Accumulator

/-- The peaks are written from the oldest on. -/
def marshalState (a : Accumulator) : Bytes :=
  if a.streaming then
    1 :: (putU64 a.count ++ putU64 a.peaks.length ++ a.peaks.reverse.flatMap putPeak)
  else
    0 :: (putU64 a.leaves.length ++ a.leaves.flatten)

end Accumulator

/-- A streaming accumulator: the count and the peaks. -/
def restoreStreaming : Reader Accumulator := do
  let count ← readU64
  let np ← readU64
  let peaks ← readPeak.times np
  pure { streaming := true, peaks := peaks.reverse, count }

/-- A full accumulator: the leaves. -/
def restoreLeaves : Reader Accumulator := do
  let n ← readU64
  let leaves ← readHash.times n
  pure { leaves }

/-- `RestoreState`: the first byte says which of the two follows. -/
def restoreState : Bytes → Except String Accumulator
  | [] => .error "EOF"
  | mode :: rest =>
    if mode = 1 then (restoreStreaming rest).map Prod.fst
    else if mode = 0 then (restoreLeaves rest).map Prod.fst
    else .error "pqaccum: bad snapshot mode"

theorem readInto_append {size : Nat} {bytes : Bytes} (positive : 0 < size)
    (length : bytes.length = size) (rest : Bytes) :
    readInto size (bytes ++ rest) = .ok (bytes, rest) := by
  have nonempty : bytes ++ rest ≠ [] := by
    rw [← List.length_pos_iff, List.length_append]
    omega
  have none_short : size - (bytes ++ rest).length = 0 := by
    rw [List.length_append]
    omega
  rw [readInto, if_neg nonempty, none_short, List.take_left' length, List.drop_left' length,
    List.replicate_zero, List.append_nil]

theorem readU64_reads : Reads readU64 putU64 (· < 256 ^ 8) := by
  intro value small rest
  rw [readU64, putU64, bind_run (readInto_append (by decide) (length_bigEndian 8 value) rest),
    ofBigEndian_bigEndian, Nat.mod_eq_of_lt small]
  rfl

theorem readHash_reads : Reads readHash id fun hash => hash.length = 32 :=
  fun _ width rest => readInto_append (by decide) width rest

theorem readPeak_reads :
    Reads readPeak putPeak fun peak => peak.size < 256 ^ 8 ∧ peak.hash.length = 32 := by
  rintro peak ⟨small, width⟩ rest
  rw [readPeak, putPeak, List.append_assoc, readU64_reads.run small,
    bind_run (show readHash (peak.hash ++ rest) = .ok (peak.hash, rest) from
      readHash_reads peak.hash width rest)]
  rfl

/-! ## The tree behind both modes -/

variable {V : Primitives}

/-- The Merkle root over the leaves of some data. -/
def rootOver (V : Primitives) (data : List Bytes) : Hash :=
  (Peaks.root (nodeHash V) (data.map (leafHash V))).getD zeroHash

/-- The same peak in the general frontier. -/
def toPeak (peak : Peak) : Peaks.Peak Hash := ⟨peak.hash, peak.size⟩

theorem promotePairs_eq (level : List Hash) :
    promotePairs V level = Peaks.promote (nodeHash V) level := by
  match level with
  | [] => rfl
  | [_] => rfl
  | _ :: _ :: rest => rw [promotePairs, Peaks.promote, promotePairs_eq rest]

theorem rootOfLeaves_eq {rounds : Nat} {leaves : List Hash} (enough : leaves.length ≤ rounds + 1) :
    rootOfLeaves V rounds leaves = (Peaks.climb (nodeHash V) rounds leaves).getD zeroHash := by
  induction rounds generalizing leaves with
  | zero =>
    match leaves, enough with
    | [], _ => rfl
    | [_], _ => rfl
    | _ :: _ :: _, enough => exact absurd enough (by simp)
  | succ rounds ih =>
    match leaves, enough with
    | [], _ => rfl
    | [_], _ => rfl
    | first :: second :: rest, enough =>
      have shorter : (Peaks.promote (nodeHash V) (first :: second :: rest)).length = _ :=
        Peaks.length_promote _
      rw [Peaks.climb_succ]
      change rootOfLeaves V rounds (promotePairs V (first :: second :: rest)) = _
      rw [promotePairs_eq]
      refine ih ?_
      rw [shorter]
      rw [List.length_cons, List.length_cons] at enough ⊢
      omega

/-- Pushing a peak. -/
theorem pushPeak_eq (peak : Peak) (peaks : List Peak) :
    (pushPeak V peak peaks).map toPeak =
      Peaks.push (nodeHash V) (toPeak peak) (peaks.map toPeak) := by
  induction peaks generalizing peak with
  | nil => rfl
  | cons newest older ih =>
    rw [List.map_cons, pushPeak, Peaks.push]
    by_cases same : newest.size = peak.size
    · rw [if_pos same, if_pos (show (toPeak newest).size = (toPeak peak).size from same), ih]
      rfl
    · rw [if_neg same, if_neg (show ¬(toPeak newest).size = (toPeak peak).size from same)]
      rfl

theorem rootFromPeaks_eq (peaks : List Peak) :
    rootFromPeaks V peaks = (Peaks.fold (nodeHash V) (peaks.map toPeak)).getD zeroHash := by
  cases peaks with
  | nil => rfl
  | cons newest older =>
    rw [rootFromPeaks, List.map_cons, Peaks.fold, List.foldl_map]
    rfl

/-! ## What an accumulator holds -/

/-- A streaming accumulator over some data. -/
structure Streams (V : Primitives) (data : List Bytes) (a : Accumulator) : Prop where
  streaming : a.streaming = true
  leaves : a.leaves = []
  count : a.count = data.length
  peaks : Peaks.Summits (nodeHash V) (a.peaks.map toPeak) (data.map (leafHash V))

/-- An accumulator that retains the leaves of some data. -/
def retained (V : Primitives) (data : List Bytes) : Accumulator :=
  { leaves := data.map (leafHash V) }

theorem Streams.empty : Streams V [] .newStreaming where
  streaming := rfl
  leaves := rfl
  count := rfl
  peaks := Peaks.Summits.nil

/-- An insertion. -/
theorem Streams.add {data : List Bytes} {a : Accumulator} (streams : Streams V data a)
    (item : Bytes) : Streams V (data ++ [item]) (a.add V item) := by
  have added : a.add V item =
      { a with peaks := pushPeak V ⟨leafHash V item, 1⟩ a.peaks, count := a.count + 1 } := by
    rw [Accumulator.add, if_pos streams.streaming]
  rw [added]
  constructor
  case streaming => exact streams.streaming
  case leaves => exact streams.leaves
  case count =>
    rw [List.length_append, ← streams.count]
    rfl
  case peaks =>
    change Peaks.Summits _ ((pushPeak V ⟨leafHash V item, 1⟩ a.peaks).map toPeak) _
    rw [pushPeak_eq, List.map_append]
    refine streams.peaks.push (k := 0) rfl rfl rfl fun p member => ?_
    exact streams.peaks.positive p (List.mem_of_mem_head? member)

theorem Streams.root {data : List Bytes} {a : Accumulator} (streams : Streams V data a) :
    a.root V = rootOver V data := by
  rw [Accumulator.root, if_pos streams.streaming, rootFromPeaks_eq, streams.peaks.fold]
  rfl

theorem retained_root (data : List Bytes) : (retained V data).root V = rootOver V data := by
  change rootOfLeaves V (data.map (leafHash V)).length (data.map (leafHash V)) = _
  rw [rootOfLeaves_eq (Nat.le_succ _)]
  rfl

theorem retained_add (data : List Bytes) (item : Bytes) :
    (retained V data).add V item = retained V (data ++ [item]) := by
  rw [retained, retained, List.map_append]
  rfl

/-! ## Reading the state back -/

section Reload

variable (width : ∀ data, (V.blake2b data).length = 32)

include width

/-- A restart restores a streaming accumulator. -/
theorem Streams.reload {data : List Bytes} {a : Accumulator} (streams : Streams V data a)
    (counted : data.length < 2 ^ 63) : restoreState a.marshalState = .ok a := by
  have leafWidth : ∀ leaf ∈ data.map (leafHash V), leaf.length = 32 := by
    intro leaf member
    obtain ⟨item, -, rfl⟩ := List.mem_map.mp member
    exact width _
  have bounds := streams.peaks.bounds
  rw [List.length_map, List.length_map] at bounds
  have valid : ∀ peak ∈ a.peaks.reverse, peak.size < 256 ^ 8 ∧ peak.hash.length = 32 := by
    intro peak member
    have listed := List.mem_map_of_mem (f := toPeak) (List.mem_reverse.mp member)
    constructor
    · have small := bounds.2 _ listed
      change peak.size ≤ _ at small
      omega
    · exact streams.peaks.forall_hash leafWidth (fun _ _ => width _) _ listed
  have few : a.peaks.length < 256 ^ 8 := by omega
  rw [Accumulator.marshalState, if_pos streams.streaming, restoreState, if_pos rfl,
    restoreStreaming, List.append_assoc,
    readU64_reads.run (show a.count < 256 ^ 8 by rw [streams.count]; omega),
    readU64_reads.run few]
  have peaks := readPeak_reads.times a.peaks.reverse valid []
  rw [List.length_reverse, List.append_nil] at peaks
  rw [bind_run peaks]
  obtain ⟨leaves, streaming, peaks, count⟩ := a
  obtain rfl : streaming = true := streams.streaming
  obtain rfl : leaves = [] := streams.leaves
  change Except.ok (_ : Accumulator) = _
  rw [List.reverse_reverse]

/-- A restart restores a full one. -/
theorem retained_reload {data : List Bytes} (counted : data.length < 2 ^ 63) :
    restoreState (retained V data).marshalState = .ok (retained V data) := by
  have leafWidth : ∀ leaf ∈ data.map (leafHash V), leaf.length = 32 := by
    intro leaf member
    obtain ⟨item, -, rfl⟩ := List.mem_map.mp member
    exact width _
  have few : (data.map (leafHash V)).length < 256 ^ 8 := by
    rw [List.length_map]
    omega
  have leaves := readHash_reads.times (data.map (leafHash V)) leafWidth []
  rw [List.append_nil, List.flatMap_id] at leaves
  change (restoreLeaves (putU64 (data.map (leafHash V)).length ++
    (data.map (leafHash V)).flatten)).map Prod.fst = _
  rw [restoreLeaves, readU64_reads.run few, bind_run leaves]
  rfl

end Reload

/-! ## Runs -/

/-- An addition, or a write of the state and a read of it. -/
inductive Op where
  | add (data : Bytes)
  | reload

namespace Accumulator

/-- One insertion or one restart. -/
def step (V : Primitives) (a : Accumulator) : Op → Except String Accumulator
  | .add data => .ok (a.add V data)
  | .reload => restoreState a.marshalState

/-- The accumulator after insertions and restarts. -/
def run (V : Primitives) (a : Accumulator) (ops : List Op) : Except String Accumulator :=
  ops.foldlM (step V) a

end Accumulator

/-- What a run adds. -/
def added : List Op → List Bytes
  | [] => []
  | .add data :: ops => data :: added ops
  | .reload :: ops => added ops

section Runs

variable (width : ∀ data, (V.blake2b data).length = 32)

include width

theorem Streams.run {data : List Bytes} {a : Accumulator} (streams : Streams V data a)
    (ops : List Op) (counted : (data ++ added ops).length < 2 ^ 63) :
    ∃ a', a.run V ops = .ok a' ∧ Streams V (data ++ added ops) a' := by
  induction ops generalizing data a with
  | nil => exact ⟨a, rfl, by rw [added, List.append_nil]; exact streams⟩
  | cons op ops ih =>
    cases op with
    | add item =>
      rw [added, List.append_cons] at counted ⊢
      exact ih (streams.add item) counted
    | reload =>
      have back := streams.reload width (by rw [List.length_append] at counted; omega)
      obtain ⟨a', ran, streams'⟩ := ih streams counted
      refine ⟨a', ?_, streams'⟩
      rw [Accumulator.run, List.foldlM_cons]
      change (restoreState a.marshalState >>= _) = _
      rw [back]
      exact ran

theorem retained_run {data : List Bytes} {ops : List Op}
    (counted : (data ++ added ops).length < 2 ^ 63) :
    (retained V data).run V ops = .ok (retained V (data ++ added ops)) := by
  induction ops generalizing data with
  | nil => rw [added, List.append_nil]; rfl
  | cons op ops ih =>
    cases op with
    | add item =>
      rw [added, List.append_cons] at counted ⊢
      rw [← ih counted, ← retained_add]
      rfl
    | reload =>
      have back := retained_reload width
        (show data.length < 2 ^ 63 by rw [List.length_append] at counted; omega)
      rw [Accumulator.run, List.foldlM_cons]
      change (restoreState (retained V data).marshalState >>= _) = _
      rw [back]
      exact ih counted

/-- **The two modes agree.** After the same additions, each mode with reloads of its own in
between: the roots and the sizes are equal, and so are the predicted roots, which are the
roots after adding. -/
theorem streaming_agrees_with_leaves {streamed full : List Op} (same : added streamed = added full)
    (counted : (added full).length < 2 ^ 63) :
    ∃ s f, Accumulator.newStreaming.run V streamed = .ok s ∧ Accumulator.new.run V full = .ok f ∧
      s.root V = f.root V ∧ s.len = f.len ∧ s.len = (added full).length ∧
      ∀ extra, s.rootAfter V extra = (extra.foldl (Accumulator.add V) s).root V ∧
        f.rootAfter V extra = (extra.foldl (Accumulator.add V) f).root V ∧
        s.rootAfter V extra = f.rootAfter V extra := by
  obtain ⟨s, streamedRun, streams⟩ := Streams.empty.run width streamed
    (by rw [List.nil_append, same]; exact counted)
  rw [List.nil_append, same] at streams
  have fullRun := @retained_run V width [] full (by rw [List.nil_append]; exact counted)
  rw [List.nil_append] at fullRun
  refine ⟨s, _, streamedRun, fullRun, ?_, ?_, ?_, fun extra => ⟨?_, ?_, ?_⟩⟩
  · rw [streams.root, retained_root]
  · rw [Accumulator.len, if_pos streams.streaming, streams.count]
    exact (List.length_map _).symm
  · rw [Accumulator.len, if_pos streams.streaming, streams.count]
  · exact (Accumulator.root_foldl_add V s extra).symm
  · exact (Accumulator.root_foldl_add V _ extra).symm
  · rw [← Accumulator.root_foldl_add, ← Accumulator.root_foldl_add]
    have later : ∀ (extra data : List Bytes) (a : Accumulator), Streams V data a →
        Streams V (data ++ extra) (extra.foldl (Accumulator.add V) a) ∧
          extra.foldl (Accumulator.add V) (retained V data) = retained V (data ++ extra) := by
      intro extra
      induction extra with
      | nil => exact fun data a streams => by rw [List.append_nil]; exact ⟨streams, rfl⟩
      | cons item extra ih =>
        intro data a streams
        rw [List.append_cons, List.foldl_cons, List.foldl_cons, retained_add]
        exact ih _ _ (streams.add item)
    obtain ⟨streams', retained'⟩ := later extra (added full) s streams
    rw [streams'.root, retained', retained_root]

end Runs

/-- A network whose hash is the first 32 bytes. -/
def clipped : Primitives := Testnet.primitives fun data => (data ++ List.replicate 32 0).take 32

/-- Three additions, with reloads at different places. -/
theorem three_leaves_agree :
    ∃ s f, Accumulator.newStreaming.run clipped [.add [1], .reload, .add [2], .add [3]] = .ok s ∧
      Accumulator.new.run clipped [.add [1], .add [2], .reload, .add [3], .reload] = .ok f ∧
      s.root clipped = f.root clipped ∧ s.len = f.len ∧ s.len = 3 ∧
      ∀ extra, s.rootAfter clipped extra = (extra.foldl (Accumulator.add clipped) s).root clipped ∧
        f.rootAfter clipped extra = (extra.foldl (Accumulator.add clipped) f).root clipped ∧
        s.rootAfter clipped extra = f.rootAfter clipped extra := by
  have width : ∀ data, (clipped.blake2b data).length = 32 := by
    intro data
    change ((data ++ List.replicate 32 0).take 32).length = 32
    rw [List.length_take, List.length_append, List.length_replicate]
    omega
  exact streaming_agrees_with_leaves width rfl (by decide)

end Obscura.PQAccum
