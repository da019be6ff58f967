import Mathlib
import Obscura.Lib.Magnitude
import Obscura.Witnesses

/-! # The accumulator in a snapshot

The bytes that carry an accumulator in a node's snapshot. Every accumulator of a run, archive or
value-only, comes back from its bytes, whatever follows them (`state_restored`). The reads are
the plain reads of a byte reader, which fill what they can: a value-only snapshot that lost the
end of its counter is restored with a smaller one.
-/

namespace Obscura.Witnesses.Accumulator

open Wire

variable {G : Type}

/-- The encoding of the group's elements. -/
structure Encoding (G : Type) where
  marshal : G → Bytes
  unmarshal : Bytes → Except String G

/-- A length-prefixed string. -/
def blob (bytes : Bytes) : Bytes := bigEndian 4 bytes.length ++ bytes

variable (E : Encoding G)

/-- The mode, the value and either the count or the members. -/
def marshalState (a : Accumulator G) : Bytes :=
  if a.valueOnly then 1 :: (blob (E.marshal a.acc) ++ bigEndian 8 a.count)
  else 0 :: (blob (E.marshal a.acc) ++ (bigEndian 4 a.members.length ++
    a.members.flatMap fun p => blob (magnitude p.natAbs)))

/-- A read into `width` bytes: an error at the end of the data, else as many as there are, with
zero bytes behind them. -/
def read (width : Nat) (data : Bytes) : Except String (Bytes × Bytes) :=
  if data = [] then .error "EOF"
  else .ok (data.take width ++ List.replicate (width - data.length) 0, data.drop width)

/-- A length and as many bytes. -/
def readBlob (data : Bytes) : Except String (Bytes × Bytes) := do
  let (l, data) ← read 4 data
  let n := ofBigEndian l
  if data.length < n then .error "accumulator: corrupt snapshot"
  else if 0 < n then read n data
  else .ok ([], data)

/-- The loop over the members; the map holds a number once. -/
def readMembers : Nat → Bytes → List ℤ → Except String (List ℤ)
  | 0, _, members => .ok members
  | n + 1, data, members => do
      let (pb, data) ← readBlob data
      let p : ℤ := ofBigEndian pb
      readMembers n data (if p ∈ members then members else members ++ [p])

/-- A node from its snapshot; what follows is not looked at. -/
def restoreState (data : Bytes) : Except String (Accumulator G) :=
  match data with
  | [] => .error "EOF"
  | mode :: data => do
      let (val, data) ← readBlob data
      let acc ← E.unmarshal val
      if mode = 1 then do
        let (c, _) ← read 8 data
        .ok { acc, valueOnly := true, count := ofBigEndian c }
      else do
        let (cnt, data) ← read 4 data
        let members ← readMembers (ofBigEndian cnt) data []
        .ok { acc, members }

/-! ## Reads -/

/-- Elements come back from their encodings, which fit a four byte length. -/
structure Encoding.Exact (E : Encoding G) : Prop where
  back : ∀ x, E.unmarshal (E.marshal x) = .ok x
  sized : ∀ x, (E.marshal x).length < 256 ^ 4

variable {E}

theorem read_append {bytes : Bytes} (nonempty : 0 < bytes.length) (tail : Bytes) :
    read bytes.length (bytes ++ tail) = .ok (bytes, tail) := by
  have some : bytes ++ tail ≠ [] := by
    rw [← List.length_pos_iff, List.length_append]
    omega
  rw [read, if_neg some, List.take_left, List.drop_left, List.length_append, Nat.sub_add_eq,
    Nat.sub_self, Nat.zero_sub, List.replicate_zero, List.append_nil]

theorem read_bigEndian {width : Nat} (positive : 0 < width) (n : Nat) (tail : Bytes) :
    read width (bigEndian width n ++ tail) = .ok (bigEndian width n, tail) := by
  have whole : read (bigEndian width n).length (bigEndian width n ++ tail) =
      .ok (bigEndian width n, tail) := read_append (by rwa [length_bigEndian]) tail
  rwa [length_bigEndian] at whole

theorem readBlob_blob {bytes : Bytes} (sized : bytes.length < 256 ^ 4) (tail : Bytes) :
    readBlob (blob bytes ++ tail) = .ok (bytes, tail) := by
  unfold readBlob blob
  rw [List.append_assoc, read_bigEndian (by decide)]
  simp only [bind, Except.bind]
  rw [ofBigEndian_bigEndian, Nat.mod_eq_of_lt sized, List.length_append,
    if_neg (Nat.not_lt.mpr (Nat.le_add_right _ _))]
  by_cases some : 0 < bytes.length
  · rw [if_pos some, read_append some]
  · have none : bytes = [] := List.eq_nil_of_length_eq_zero (by omega)
    rw [if_neg some, none]
    rfl

theorem readMembers_flatMap {ps : List ℤ} (positive : ∀ p ∈ ps, 0 < p)
    (sized : ∀ p ∈ ps, (magnitude p.natAbs).length < 256 ^ 4) (tail : Bytes) {before : List ℤ}
    (nodup : (before ++ ps).Nodup) :
    readMembers ps.length ((ps.flatMap fun p => blob (magnitude p.natAbs)) ++ tail) before =
      .ok (before ++ ps) := by
  induction ps generalizing before with
  | nil => rw [List.append_nil, List.length_nil, readMembers]
  | cons p ps ih =>
    have value : ((ofBigEndian (magnitude p.natAbs) : Nat) : ℤ) = p := by
      rw [ofBigEndian_magnitude]
      exact Int.natAbs_of_nonneg (positive p List.mem_cons_self).le
    have fresh : p ∉ before := fun inside =>
      List.disjoint_of_nodup_append nodup inside List.mem_cons_self
    rw [List.length_cons, List.flatMap_cons, List.append_assoc, readMembers,
      readBlob_blob (sized p List.mem_cons_self)]
    simp only [bind, Except.bind]
    rw [value, if_neg fresh, ih (fun q inside => positive q (List.mem_cons_of_mem _ inside))
      (fun q inside => sized q (List.mem_cons_of_mem _ inside))
      (by rwa [List.append_assoc, List.singleton_append]), List.append_assoc,
      List.singleton_append]

/-! ## Restored states -/

/-- The state of an accumulator with members is restored. -/
theorem restoreState_archive (exact : E.Exact) {a : Accumulator G} (archive : a.valueOnly = false)
    (uncounted : a.count = 0) (nodup : a.members.Nodup) (positive : ∀ p ∈ a.members, 0 < p)
    (sized : ∀ p ∈ a.members, (magnitude p.natAbs).length < 256 ^ 4)
    (few : a.members.length < 256 ^ 4) (tail : Bytes) :
    restoreState E (marshalState E a ++ tail) = .ok a := by
  cases a with
  | mk acc members valueOnly count =>
    dsimp only at archive uncounted nodup positive sized few
    subst archive uncounted
    have back : readMembers members.length
        ((members.flatMap fun p => blob (magnitude p.natAbs)) ++ tail) [] = .ok ([] ++ members) :=
      readMembers_flatMap positive sized tail nodup
    rw [List.nil_append] at back
    unfold marshalState restoreState
    rw [if_neg Bool.false_ne_true, List.cons_append, List.append_assoc, List.append_assoc]
    dsimp only
    rw [readBlob_blob (exact.sized acc)]
    simp only [bind, Except.bind]
    rw [exact.back]
    dsimp only
    rw [if_neg (by decide), read_bigEndian (by decide)]
    dsimp only
    rw [ofBigEndian_bigEndian, Nat.mod_eq_of_lt few, back]

theorem restoreState_valueOnly (exact : E.Exact) (acc : G) {data c rest : Bytes}
    (reads : read 8 data = .ok (c, rest)) :
    restoreState E (1 :: (blob (E.marshal acc) ++ data)) =
      .ok { acc, valueOnly := true, count := ofBigEndian c } := by
  unfold restoreState
  dsimp only
  rw [readBlob_blob (exact.sized acc)]
  simp only [bind, Except.bind]
  rw [exact.back]
  dsimp only
  rw [if_pos trivial, reads]

theorem take_bigEndian (k j n : Nat) :
    (bigEndian (k + j) n).take k = bigEndian k (n / 256 ^ j) := by
  induction k with
  | zero => rw [List.take_zero, bigEndian]
  | succ k ih =>
    rw [Nat.succ_add, bigEndian, List.take_succ_cons, ih, bigEndian, Nat.div_div_eq_div_mul,
      ← pow_add, Nat.add_comm j k]

theorem ofBigEndian_zeros (bytes : Bytes) (k : Nat) :
    ofBigEndian (bytes ++ List.replicate k 0) = ofBigEndian bytes * 256 ^ k := by
  induction k with
  | zero => rw [List.replicate_zero, List.append_nil, pow_zero, Nat.mul_one]
  | succ k ih =>
    rw [List.replicate_succ', ← List.append_assoc, ofBigEndian_append_singleton, ih, pow_succ,
      Nat.mul_assoc]
    rfl

theorem read_cut {count lost : Nat} (small : count < 256 ^ 8) (some : lost < 8) :
    ∃ c rest, read 8 ((bigEndian 8 count).take (8 - lost)) = .ok (c, rest) ∧
      ofBigEndian c = count / 256 ^ lost * 256 ^ lost := by
  obtain ⟨kept, total⟩ : ∃ kept, kept + lost = 8 := ⟨8 - lost, by omega⟩
  have taken : (bigEndian 8 count).take (8 - lost) = bigEndian kept (count / 256 ^ lost) := by
    rw [← total, Nat.add_sub_cancel, take_bigEndian]
  have length := length_bigEndian kept (count / 256 ^ lost)
  have below : count / 256 ^ lost < 256 ^ kept := by
    rw [Nat.div_lt_iff_lt_mul (Nat.pow_pos (by decide)), ← pow_add, total]
    exact small
  have nonempty : bigEndian kept (count / 256 ^ lost) ≠ [] := by
    rw [← List.length_pos_iff, length]
    omega
  refine ⟨_, _, by rw [taken, read, if_neg nonempty], ?_⟩
  rw [List.take_of_length_le (by omega), length, ofBigEndian_zeros, ofBigEndian_bigEndian,
    Nat.mod_eq_of_lt below]
  congr 2
  omega

theorem run_plain [CommGroup G] (g : G) (actions : List Action) :
    (run g actions).valueOnly = false ∧ (run g actions).count = 0 := by
  induction actions using List.reverseRecOn with
  | nil => exact ⟨rfl, rfl⟩
  | append_singleton actions last ih =>
    obtain ⟨archive, uncounted⟩ := ih
    rw [run, List.foldl_append]
    change (step g (run g actions) last).valueOnly = false ∧
      (step g (run g actions) last).count = 0
    cases last with
    | add p =>
      dsimp only [step, add]
      rw [if_neg (by rw [archive]; exact Bool.false_ne_true)]
      split_ifs with present
      · exact ⟨archive, uncounted⟩
      · exact ⟨archive, uncounted⟩
    | remove p =>
      dsimp only [step, remove]
      split_ifs with present
      · exact ⟨archive, uncounted⟩
      · exact ⟨archive, uncounted⟩

/-- Snapshots give back what they were taken of, whatever follows the bytes: the accumulator of
any run of an archive node, in whichever order its map is written, and any value-only one. Of a
value-only snapshot that lost up to seven bytes at its end the value comes back, and the count
with zeros for the bytes that are gone. -/
theorem state_restored [CommGroup G] (exact : E.Exact) (g : G) {actions : List Action}
    (primes : Primes actions)
    (sized : ∀ p ∈ (run g actions).members, (magnitude p.natAbs).length < 256 ^ 4)
    (few : (run g actions).members.length < 256 ^ 4) :
    (∀ members, members.Perm (run g actions).members → ∀ tail,
      restoreState E (marshalState E { run g actions with members } ++ tail) =
        .ok { run g actions with members }) ∧
    ∀ acc count, count < 2 ^ 63 →
      let a : Accumulator G := { acc, valueOnly := true, count }
      (∀ tail, restoreState E (marshalState E a ++ tail) = .ok a) ∧
      ∀ lost < 8, restoreState E ((marshalState E a).take ((marshalState E a).length - lost)) =
        .ok { a with count := count / 256 ^ lost * 256 ^ lost } := by
  have holds := Holds.run (g := g) primes
  refine ⟨fun members order tail => ?_, fun acc count positive => ?_⟩
  · exact restoreState_archive (a := { run g actions with members }) exact holds.archive
      (run_plain g actions).2 (order.nodup_iff.mpr holds.nodup)
      (fun p member => (holds.prime p (order.mem_iff.mp member)).1)
      (fun p member => sized p (order.mem_iff.mp member)) (order.length_eq.trans_lt few) tail
  have small : count < 256 ^ 8 := positive.trans (by decide)
  have bytes : marshalState E { acc, valueOnly := true, count } =
      1 :: (blob (E.marshal acc) ++ bigEndian 8 count) := if_pos rfl
  dsimp only
  rw [bytes]
  refine ⟨fun tail => ?_, fun lost few => ?_⟩
  · have whole := restoreState_valueOnly exact acc
      (read_bigEndian (by decide) count tail)
    rw [ofBigEndian_bigEndian, Nat.mod_eq_of_lt small] at whole
    rw [List.cons_append, List.append_assoc, whole]
  · obtain ⟨c, rest, reads, value⟩ := read_cut small few
    have cut : (1 :: (blob (E.marshal acc) ++ bigEndian 8 count)).take
        ((1 :: (blob (E.marshal acc) ++ bigEndian 8 count)).length - lost) =
        1 :: (blob (E.marshal acc) ++ (bigEndian 8 count).take (8 - lost)) := by
      have place : (1 :: (blob (E.marshal acc) ++ bigEndian 8 count)).length - lost =
          (blob (E.marshal acc)).length + (8 - lost) + 1 := by
        rw [List.length_cons, List.length_append, length_bigEndian]
        omega
      rw [place, List.take_succ_cons, List.take_length_add_append]
    rw [cut, restoreState_valueOnly exact acc reads, value]

/-- An archive node over a group of seven elements, encoded as one byte. -/
theorem state_restored_seven :
    let g : Multiplicative (ZMod 7) := .ofAdd 1
    let E : Encoding (Multiplicative (ZMod 7)) :=
      ⟨fun x => [UInt8.ofNat x.toAdd.val], fun bytes => .ok (.ofAdd (ofBigEndian bytes))⟩
    let actions : List Action := [.add 2, .add 3, .remove 2]
    restoreState E (marshalState E (run g actions) ++ []) = .ok (run g actions) := by
  intro g E actions
  have exact : E.Exact := by
    refine ⟨fun x => ?_, fun x => show 1 < 256 ^ 4 by decide⟩
    revert x
    decide
  refine (@state_restored _ E _ exact g actions ?_ ?_ ?_).1 _ (List.Perm.refl _) []
  · intro p member
    have cases : p = 2 ∨ p = 3 := by simpa [actions] using member
    rcases cases with rfl | rfl
    · exact ⟨by decide, Int.prime_two⟩
    · exact ⟨by decide, Int.prime_three⟩
  · intro p member
    obtain rfl : p = 3 := List.mem_singleton.mp member
    decide
  · show 1 < 256 ^ 4
    decide

end Obscura.Witnesses.Accumulator
