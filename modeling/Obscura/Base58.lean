import Mathlib.Data.List.TakeWhile
import Mathlib.Data.Nat.Digits.Lemmas
import Obscura.Lib.Magnitude

/-! # Base 58

Identifiers are the base-58 digits of the number their bytes spell, with a `1` for every leading
zero byte. Decoding and encoding invert each other in both directions.
-/

namespace Obscura.Base58

open Wire

/-- The 58 characters, without those that look alike. -/
def alphabet : Bytes := ascii "123456789ABCDEFGHJKLMNPQRSTUVWXYZabcdefghijkmnopqrstuvwxyz"

/-- The character of a digit. -/
def char (d : Nat) : UInt8 := alphabet.getD d 0

/-- The division loop of `Encode`: the digits of `x`, the lowest first. -/
def digitLoop (x : Nat) : Bytes :=
  if 0 < x then char (x % 58) :: digitLoop (x / 58) else []
termination_by x
decreasing_by exact Nat.div_lt_self ‹0 < x› (by decide)

/-- How often `a` is repeated at the front. -/
def leading (a : UInt8) (s : Bytes) : Nat := (s.takeWhile (· == a)).length

/-- A leading zero byte becomes a leading first character. -/
def encode (b : Bytes) : Bytes :=
  (digitLoop (ofBigEndian b) ++ List.replicate (leading 0 b) (char 0)).reverse

/-- The bytes of a number in base 58, after its leading zeros. -/
def decode (s : Bytes) : Except String Bytes :=
  if s = [] then .error "base58: empty string"
  else
    match s.foldlM (fun x c => (alphabet.idxOf? c).map fun idx => x * 58 + idx) 0 with
    | none => .error "base58: invalid character"
    | some x => .ok (List.replicate (leading (char 0) s) 0 ++ magnitude x)

/-! ## Leading symbols -/

theorem leading_split (a : UInt8) (s : Bytes) :
    ∃ rest, s = List.replicate (leading a s) a ++ rest ∧ rest.head? ≠ some a := by
  refine ⟨s.dropWhile (· == a), ?_, fun first => ?_⟩
  · conv_lhs => rw [← List.takeWhile_append_dropWhile (p := (· == a)) (l := s)]
    refine congrArg (· ++ _) (List.eq_replicate_iff.mpr ⟨rfl, fun c member => ?_⟩)
    exact beq_iff_eq.mp (List.mem_takeWhile_imp (p := (· == a)) member)
  · have stops := List.head?_dropWhile_not (· == a) s
    rw [first] at stops
    simp at stops

theorem leading_replicate (a : UInt8) (count : Nat) {rest : Bytes} (other : rest.head? ≠ some a) :
    leading a (List.replicate count a ++ rest) = count := by
  induction count with
  | zero =>
    cases rest with
    | nil => rfl
    | cons c rest =>
      have different : (c == a) = false := by
        rw [beq_eq_false_iff_ne]
        exact fun same => other (by rw [List.head?_cons, same])
      rw [leading, List.replicate_zero, List.nil_append, List.takeWhile_cons, different]
      rfl
  | succ count ih =>
    rw [leading] at ih ⊢
    rw [List.replicate_succ, List.cons_append, List.takeWhile_cons, beq_self_eq_true, if_pos rfl,
      List.length_cons, ih]

theorem ofBigEndian_zeros (count : Nat) (rest : Bytes) :
    ofBigEndian (List.replicate count 0 ++ rest) = ofBigEndian rest := by
  induction count with
  | zero => rfl
  | succ count ih =>
    rw [List.replicate_succ, List.cons_append, ofBigEndian_cons, ih, UInt8.toNat_zero,
      Nat.zero_mul, Nat.zero_add]

/-! ## Digits -/

theorem digitLoop_eq (x : Nat) : digitLoop x = (Nat.digits 58 x).map char := by
  induction x using Nat.strongRecOn with
  | ind x ih =>
    rw [digitLoop]
    split_ifs with more
    · rw [ih (x / 58) (Nat.div_lt_self more (by decide)),
        Nat.digits_eq_cons_digits_div (by decide) more.ne', List.map_cons]
    · obtain rfl : x = 0 := by omega
      rw [Nat.digits_zero, List.map_nil]

theorem idxOf_char {d : Nat} (small : d < 58) : alphabet.idxOf? (char d) = some d := by
  revert d
  decide

theorem char_of_idxOf {c : UInt8} {d : Nat} (found : alphabet.idxOf? c = some d) :
    d < 58 ∧ char d = c := by
  rw [List.idxOf?, List.findIdx?_eq_some_iff_getElem] at found
  obtain ⟨inside, same, -⟩ := found
  refine ⟨inside, ?_⟩
  rw [char, List.getD_eq_getElem?_getD, List.getElem?_eq_getElem inside, Option.getD_some]
  exact beq_iff_eq.mp same

theorem read_chars {ds : List Nat} (small : ∀ d ∈ ds, d < 58) :
    (ds.map char).foldlM (fun x c => (alphabet.idxOf? c).map fun idx => x * 58 + idx) 0 =
      some (Nat.ofDigits 58 ds.reverse) := by
  induction ds using List.reverseRecOn with
  | nil => rfl
  | append_singleton ds d ih =>
    have before := ih fun d member => small d (List.mem_append_left _ member)
    have last := small d (List.mem_append_right _ (List.mem_singleton_self d))
    rw [List.map_append, List.foldlM_append, before, List.map_singleton, List.reverse_append,
      List.reverse_singleton, List.singleton_append, Nat.ofDigits_cons]
    simp only [Option.bind_eq_bind, Option.bind_some, List.foldlM_cons, List.foldlM_nil,
      idxOf_char last, Option.map_some, Option.pure_def]
    rw [Nat.add_comm, Nat.mul_comm]

/-- What is read as a number are its digits. -/
theorem chars_of_read {s : Bytes} {x : Nat}
    (read : s.foldlM (fun x c => (alphabet.idxOf? c).map fun idx => x * 58 + idx) 0 = some x) :
    ∃ ds : List Nat, (∀ d ∈ ds, d < 58) ∧ s = ds.map char ∧ x = Nat.ofDigits 58 ds.reverse := by
  have readable : ∃ ds : List Nat, (∀ d ∈ ds, d < 58) ∧ s = ds.map char := by
    induction s using List.reverseRecOn generalizing x with
    | nil => exact ⟨[], by simp, rfl⟩
    | append_singleton s c ih =>
      rw [List.foldlM_append, Option.bind_eq_bind, Option.bind_eq_some_iff] at read
      obtain ⟨high, first, last⟩ := read
      obtain ⟨ds, small, rfl⟩ := ih first
      simp only [List.foldlM_cons, List.foldlM_nil, Option.bind_eq_bind, Option.pure_def,
        Option.bind_fun_some, Option.map_eq_some_iff] at last
      obtain ⟨d, found, -⟩ := last
      obtain ⟨below, rfl⟩ := char_of_idxOf found
      refine ⟨ds ++ [d], fun e member => ?_, by rw [List.map_append, List.map_singleton]⟩
      rcases List.mem_append.mp member with member | member
      · exact small e member
      · rwa [List.mem_singleton.mp member]
  obtain ⟨ds, small, rfl⟩ := readable
  rw [read_chars small] at read
  exact ⟨ds, small, rfl, (Option.some.inj read).symm⟩

theorem read_leading (count : Nat) (rest : Bytes) :
    (List.replicate count (char 0) ++ rest).foldlM
        (fun x c => (alphabet.idxOf? c).map fun idx => x * 58 + idx) 0 =
      rest.foldlM (fun x c => (alphabet.idxOf? c).map fun idx => x * 58 + idx) 0 := by
  induction count with
  | zero => rfl
  | succ count ih =>
    rw [List.replicate_succ, List.cons_append, List.foldlM_cons, idxOf_char (by decide),
      Option.map_some, Option.bind_eq_bind, Option.bind_some]
    exact ih

/-! ## The round trips -/

theorem char_zero_iff {d : Nat} (small : d < 58) : char d = char 0 ↔ d = 0 := by
  revert d
  decide

theorem digits_head (x : Nat) :
    ((Nat.digits 58 x).reverse.map char).head? ≠ some (char 0) := by
  intro first
  rw [List.head?_map, List.head?_reverse, Option.map_eq_some_iff] at first
  obtain ⟨d, last, zero⟩ := first
  have member := List.mem_of_getLast? last
  obtain rfl := (char_zero_iff (Nat.digits_lt_base (by decide) member)).mp zero
  have nonzero : x ≠ 0 := by
    rintro rfl
    simp at last
  have some_digit : Nat.digits 58 x ≠ [] := Nat.digits_ne_nil_iff_ne_zero.mpr nonzero
  rw [List.getLast?_eq_some_getLast some_digit] at last
  exact Nat.getLast_digit_ne_zero 58 nonzero (Option.some.inj last)

theorem encode_eq (b : Bytes) : encode b = List.replicate (leading 0 b) (char 0) ++
    (Nat.digits 58 (ofBigEndian b)).reverse.map char := by
  rw [encode, digitLoop_eq, List.reverse_append, List.reverse_replicate, List.map_reverse]

/-- Decoding undoes encoding, but for the empty string. -/
theorem decode_encode {b : Bytes} (nonempty : b ≠ []) : decode (encode b) = .ok b := by
  obtain ⟨rest, split, minimal⟩ := leading_split 0 b
  have value : ofBigEndian b = ofBigEndian rest := by
    conv_lhs => rw [split]
    exact ofBigEndian_zeros _ rest
  have zeros : leading (char 0) (encode b) = leading 0 b := by
    rw [encode_eq]
    exact leading_replicate _ _ (digits_head _)
  have shown : encode b ≠ [] := by
    intro none
    have count : leading 0 b = 0 := by
      rw [← zeros, none]
      rfl
    rw [count, List.replicate_zero, List.nil_append] at split
    rw [encode_eq, List.append_eq_nil_iff, List.map_eq_nil_iff, List.reverse_eq_nil_iff,
      Nat.digits_eq_nil_iff_eq_zero, value] at none
    have empty := magnitude_ofBigEndian minimal
    rw [none.2] at empty
    exact nonempty (split.trans empty.symm)
  have chars : encode b =
      (List.replicate (leading 0 b) 0 ++ (Nat.digits 58 (ofBigEndian b)).reverse).map char := by
    rw [encode_eq, List.map_append, List.map_replicate]
  have small : ∀ d ∈ List.replicate (leading 0 b) 0 ++ (Nat.digits 58 (ofBigEndian b)).reverse,
      d < 58 := by
    intro d member
    rcases List.mem_append.mp member with member | member
    · rw [List.eq_of_mem_replicate member]
      decide
    · exact Nat.digits_lt_base (by decide) (List.mem_reverse.mp member)
  have read := read_chars small
  rw [← chars, List.reverse_append, List.reverse_reverse, List.reverse_replicate,
    Nat.ofDigits_append_replicate_zero, Nat.ofDigits_digits] at read
  rw [decode, if_neg shown, read]
  dsimp only
  rw [zeros, value, magnitude_ofBigEndian minimal, ← split]

/-- Encoding undoes decoding. -/
theorem encode_decode {s b : Bytes} (decoded : decode s = .ok b) : encode b = s := by
  rw [decode] at decoded
  split_ifs at decoded with empty
  split at decoded
  · exact nomatch decoded
  next x read =>
  obtain rfl := Except.ok.inj decoded
  obtain ⟨rest, split, proper⟩ := leading_split (char 0) s
  have zeros : leading 0 (List.replicate (leading (char 0) s) 0 ++ magnitude x) =
      leading (char 0) s := leading_replicate _ _ (magnitude_minimal x)
  rw [encode_eq, zeros, ofBigEndian_zeros, ofBigEndian_magnitude]
  -- the digits after the leading ones are those of the number
  have readRest : rest.foldlM (fun x c => (alphabet.idxOf? c).map fun idx => x * 58 + idx) 0 =
      some x := by
    rw [← read_leading (leading (char 0) s), ← split]
    exact read
  obtain ⟨ds, small, chars, rfl⟩ := chars_of_read readRest
  have digits : Nat.digits 58 (Nat.ofDigits 58 ds.reverse) = ds.reverse := by
    refine Nat.digits_ofDigits 58 (by decide) _
      (fun d member => small d (List.mem_reverse.mp member)) fun nonempty zero => proper ?_
    rw [List.getLast_reverse] at zero
    rw [chars, List.head?_map, List.head?_eq_some_head (by simpa using nonempty), zero]
    rfl
  rw [digits, List.reverse_reverse, ← chars]
  exact split.symm

end Obscura.Base58
