import Obscura.Lib.Wire

/-! # Minimal magnitudes

A natural number as its big-endian bytes without a leading zero byte. The strings without a
leading zero are exactly the magnitudes of the numbers they denote.
-/

namespace Wire

/-- The minimal big-endian magnitude of an unbounded integer. -/
def magnitude (n : Nat) : Bytes :=
  if n = 0 then [] else bigEndian (n.log2 / 8 + 1) n

/-- No leading zero byte. -/
def Minimal (bytes : Bytes) : Prop := bytes.head? ≠ some 0

instance (bytes : Bytes) : Decidable (Minimal bytes) := inferInstanceAs (Decidable (_ ≠ _))

theorem ofBigEndian_cons (byte : UInt8) (bytes : Bytes) :
    ofBigEndian (byte :: bytes) = byte.toNat * 256 ^ bytes.length + ofBigEndian bytes := by
  induction bytes using List.reverseRecOn with
  | nil => simp [ofBigEndian]
  | append_singleton bytes last ih =>
    rw [← List.cons_append, ofBigEndian_append_singleton, ih, ofBigEndian_append_singleton,
      List.length_append, List.length_singleton, pow_succ]
    ring

theorem width_iff {n : Nat} (positive : n ≠ 0) (width : Nat) :
    n.log2 / 8 + 1 = width + 1 ↔ 256 ^ width ≤ n ∧ n < 256 ^ (width + 1) := by
  have power : ∀ k, 256 ^ k = 2 ^ (8 * k) := fun k => by
    rw [pow_mul]
    rfl
  rw [power, power, ← Nat.le_log2 positive, ← Nat.log2_lt positive]
  omega

theorem magnitude_bounds {n : Nat} (positive : n ≠ 0) :
    256 ^ (n.log2 / 8) ≤ n ∧ n < 256 ^ (n.log2 / 8 + 1) :=
  (width_iff positive _).mp rfl

@[simp] theorem ofBigEndian_magnitude (n : Nat) : ofBigEndian (magnitude n) = n := by
  unfold magnitude
  split_ifs with zero
  · rw [zero]
    rfl
  · rw [ofBigEndian_bigEndian, Nat.mod_eq_of_lt (magnitude_bounds zero).2]

/-- A magnitude has no leading zero. -/
theorem magnitude_minimal (n : Nat) : Minimal (magnitude n) := by
  unfold magnitude Minimal
  split_ifs with zero
  · exact fun none => nomatch none
  · intro head
    have length := length_bigEndian (n.log2 / 8 + 1) n
    have value := ofBigEndian_bigEndian (n.log2 / 8 + 1) n
    obtain ⟨rest, bytes⟩ := List.head?_eq_some_iff.mp head
    rw [bytes, List.length_cons] at length
    rw [bytes, ofBigEndian_cons, Nat.mod_eq_of_lt (magnitude_bounds zero).2] at value
    have small := ofBigEndian_lt rest
    rw [Nat.succ.inj length] at small
    have large := (magnitude_bounds zero).1
    have none : (0 : UInt8).toNat = 0 := rfl
    rw [none, zero_mul, zero_add] at value
    omega

theorem magnitude_ofBigEndian {bytes : Bytes} (minimal : Minimal bytes) :
    magnitude (ofBigEndian bytes) = bytes := by
  cases bytes with
  | nil => rfl
  | cons byte bytes =>
    have value := ofBigEndian_cons byte bytes
    have small := ofBigEndian_lt (byte :: bytes)
    have leading : 0 < byte.toNat := by
      refine Nat.pos_of_ne_zero fun zero => minimal ?_
      rw [List.head?_cons, ← UInt8.toNat_inj.mp (zero.trans rfl : byte.toNat = (0 : UInt8).toNat)]
    have large : 256 ^ bytes.length ≤ ofBigEndian (byte :: bytes) := by
      have factor := Nat.le_mul_of_pos_left (256 ^ bytes.length) leading
      omega
    have positive : ofBigEndian (byte :: bytes) ≠ 0 := by
      have one := Nat.pow_pos (n := bytes.length) (by decide : 0 < 256)
      omega
    rw [magnitude, if_neg positive, (width_iff positive bytes.length).mpr ⟨large, small⟩]
    exact bigEndian_ofBigEndian rfl

theorem length_magnitude_le (bytes : Bytes) :
    (magnitude (ofBigEndian bytes)).length ≤ bytes.length := by
  unfold magnitude
  split_ifs with zero
  · exact Nat.zero_le _
  · rw [length_bigEndian]
    by_contra longer
    have large := (magnitude_bounds zero).1
    have small := ofBigEndian_lt bytes
    have power : 256 ^ bytes.length ≤ 256 ^ ((ofBigEndian bytes).log2 / 8) :=
      Nat.pow_le_pow_right (by decide) (by omega)
    omega

end Wire
