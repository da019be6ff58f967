import Mathlib.Data.List.Basic
import Mathlib.Data.List.Induction
import Mathlib.Tactic.Ring

/-! # Byte strings and self-delimiting encodings

Byte strings, fixed-width big-endian integers, length-prefixed fields and lists,
and the one notion behind every unambiguous byte layout: an encoder is
*self-delimiting* on a set of values when two concatenations that start with the
codes of two of these values determine the values and the remainders
(`SelfDelimiting`). Fixed-width injective encoders are self-delimiting, and the
notion is closed under tags, sequencing and counted lists.
-/

namespace Wire

/-- Byte strings. -/
abbrev Bytes := List UInt8

instance instLawfulBEqBytes : LawfulBEq Bytes := inferInstance

/-- The bytes of an ASCII string. -/
def ascii (text : String) : Bytes :=
  text.toList.map fun char => UInt8.ofNat char.toNat

/-- The `width` low base-256 digits of a number, most significant first. -/
def bigEndian : (width : Nat) → Nat → Bytes
  | 0, _ => []
  | width + 1, number => UInt8.ofNat (number / 256 ^ width) :: bigEndian width number

/-- The number a byte string denotes in base 256. -/
def ofBigEndian (bytes : Bytes) : Nat :=
  bytes.foldl (fun number byte => number * 256 + byte.toNat) 0

@[simp] theorem length_bigEndian (width number : Nat) :
    (bigEndian width number).length = width := by
  induction width with
  | zero => rfl
  | succ width ih => simp [bigEndian, ih]

/-- Reading a number after another one. -/
private theorem foldl_bigEndian (width number start : Nat) :
    (bigEndian width number).foldl (fun value byte => value * 256 + byte.toNat) start =
      start * 256 ^ width + number % 256 ^ width := by
  induction width generalizing start with
  | zero => simp [bigEndian, Nat.mod_one]
  | succ width ih =>
    have digit : (UInt8.ofNat (number / 256 ^ width)).toNat = number / 256 ^ width % 256 := by
      simp
    have split : number % 256 ^ (width + 1) =
        number / 256 ^ width % 256 * 256 ^ width + number % 256 ^ width := by
      rw [Nat.pow_succ, Nat.mod_mul]
      ring
    simp only [bigEndian, List.foldl_cons]
    rw [ih, digit, split, Nat.pow_succ]
    ring

theorem ofBigEndian_bigEndian (width number : Nat) :
    ofBigEndian (bigEndian width number) = number % 256 ^ width := by
  rw [ofBigEndian, foldl_bigEndian]
  simp

theorem bigEndian_inj (width : Nat) {first second : Nat} (firstSmall : first < 256 ^ width)
    (secondSmall : second < 256 ^ width)
    (same : bigEndian width first = bigEndian width second) : first = second := by
  have values := congrArg ofBigEndian same
  rwa [ofBigEndian_bigEndian, ofBigEndian_bigEndian, Nat.mod_eq_of_lt firstSmall,
    Nat.mod_eq_of_lt secondSmall] at values

theorem ofBigEndian_append_singleton (bytes : Bytes) (byte : UInt8) :
    ofBigEndian (bytes ++ [byte]) = ofBigEndian bytes * 256 + byte.toNat := by
  rw [ofBigEndian, List.foldl_append]
  rfl

theorem ofBigEndian_lt (bytes : Bytes) : ofBigEndian bytes < 256 ^ bytes.length := by
  induction bytes using List.reverseRecOn with
  | nil => exact Nat.one_pos
  | append_singleton bytes byte ih =>
    have small := byte.toNat_lt
    rw [ofBigEndian_append_singleton, List.length_append, List.length_singleton, pow_succ]
    omega

theorem ofBigEndian_inj {first second : Bytes} (lengths : first.length = second.length)
    (same : ofBigEndian first = ofBigEndian second) : first = second := by
  induction first using List.reverseRecOn generalizing second with
  | nil => exact (List.length_eq_zero_iff.mp lengths.symm).symm
  | append_singleton first byte ih =>
    cases second using List.reverseRecOn with
    | nil => simp at lengths
    | append_singleton second byte' =>
      have small := byte.toNat_lt
      have small' := byte'.toNat_lt
      rw [ofBigEndian_append_singleton, ofBigEndian_append_singleton] at same
      rw [List.length_append, List.length_append] at lengths
      have bytes : byte = byte' := UInt8.toNat_inj.mp (by omega)
      rw [ih (by simpa using lengths) (by omega), bytes]

theorem bigEndian_ofBigEndian {bytes : Bytes} {width : Nat} (length : bytes.length = width) :
    bigEndian width (ofBigEndian bytes) = bytes := by
  have bound := ofBigEndian_lt bytes
  refine ofBigEndian_inj (by rw [length_bigEndian, length]) ?_
  rw [ofBigEndian_bigEndian, Nat.mod_eq_of_lt (by rwa [length] at bound)]

section SelfDelimiting

variable {α β : Type*}

/-- On the values satisfying `valid`, a code followed by anything determines the
value and what follows. -/
def SelfDelimiting (valid : α → Prop) (encode : α → Bytes) : Prop :=
  ∀ ⦃first second : α⦄, valid first → valid second →
    ∀ ⦃left right : Bytes⦄, encode first ++ left = encode second ++ right →
      first = second ∧ left = right

namespace SelfDelimiting

theorem of_width {valid : α → Prop} {encode : α → Bytes} (width : Nat)
    (constant : ∀ value, (encode value).length = width)
    (injective : ∀ first second, valid first → valid second →
      encode first = encode second → first = second) :
    SelfDelimiting valid encode := by
  intro first second firstValid secondValid left right same
  have lengths : (encode first).length = (encode second).length := by
    rw [constant, constant]
  obtain ⟨codes, rests⟩ := List.append_inj same lengths
  exact ⟨injective first second firstValid secondValid codes, rests⟩

theorem append {firstValid : α → Prop} {secondValid : β → Prop} {encodeFirst : α → Bytes}
    {encodeSecond : β → Bytes} (first : SelfDelimiting firstValid encodeFirst)
    (second : SelfDelimiting secondValid encodeSecond) :
    SelfDelimiting (fun pair : α × β => firstValid pair.1 ∧ secondValid pair.2)
      fun pair => encodeFirst pair.1 ++ encodeSecond pair.2 := by
  rintro ⟨a, b⟩ ⟨a', b'⟩ valid valid' left right same
  simp only [List.append_assoc] at same
  obtain ⟨heads, tails⟩ := first valid.1 valid'.1 same
  obtain ⟨seconds, rests⟩ := second valid.2 valid'.2 tails
  exact ⟨Prod.ext heads seconds, rests⟩

end SelfDelimiting

/-- An eight-byte big-endian integer. -/
def putU64 (number : Nat) : Bytes := bigEndian 8 number

/-- A byte string behind its eight-byte length. -/
def putBytes (bytes : Bytes) : Bytes := putU64 bytes.length ++ bytes

/-- A list behind its eight-byte count. -/
def putList (encode : α → Bytes) (values : List α) : Bytes :=
  putU64 values.length ++ values.flatMap encode

theorem putU64_delimiting : SelfDelimiting (· < 2 ^ 64) putU64 :=
  .of_width 8 (length_bigEndian 8) fun _ _ firstSmall secondSmall same =>
    bigEndian_inj 8 (by norm_num; exact firstSmall) (by norm_num; exact secondSmall) same

theorem putBytes_delimiting : SelfDelimiting (fun bytes => bytes.length < 2 ^ 64) putBytes := by
  intro first second firstSmall secondSmall left right same
  simp only [putBytes, List.append_assoc] at same
  obtain ⟨lengths, same⟩ := putU64_delimiting firstSmall secondSmall same
  exact List.append_inj same lengths

private theorem flatMap_delimiting {valid : α → Prop} {encode : α → Bytes}
    (delimiting : SelfDelimiting valid encode) :
    ∀ {first second : List α}, (∀ value ∈ first, valid value) → (∀ value ∈ second, valid value) →
      first.length = second.length → ∀ {left right : Bytes},
        first.flatMap encode ++ left = second.flatMap encode ++ right →
          first = second ∧ left = right := by
  intro first
  induction first with
  | nil =>
    intro second _ _ lengths left right same
    rw [List.length_nil, eq_comm, List.length_eq_zero_iff] at lengths
    subst lengths
    exact ⟨rfl, by simpa using same⟩
  | cons value values ih =>
    intro second firstValid secondValid lengths left right same
    cases second with
    | nil => simp at lengths
    | cons value' values' =>
      simp only [List.flatMap_cons, List.append_assoc] at same
      obtain ⟨heads, tails⟩ := delimiting (firstValid value (by simp))
        (secondValid value' (by simp)) same
      obtain ⟨lists, rests⟩ := ih (fun v member => firstValid v (List.mem_cons_of_mem _ member))
        (fun v member => secondValid v (List.mem_cons_of_mem _ member))
        (by simpa using lengths) tails
      exact ⟨by rw [heads, lists], rests⟩

theorem putList_delimiting {valid : α → Prop} {encode : α → Bytes}
    (delimiting : SelfDelimiting valid encode) :
    SelfDelimiting (fun values => values.length < 2 ^ 64 ∧ ∀ value ∈ values, valid value)
      (putList encode) := by
  intro first second firstValid secondValid left right same
  simp only [putList, List.append_assoc] at same
  obtain ⟨lengths, same⟩ := putU64_delimiting firstValid.1 secondValid.1 same
  exact flatMap_delimiting delimiting firstValid.2 secondValid.2 lengths same

end SelfDelimiting

end Wire
