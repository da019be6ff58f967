import Mathlib.Data.List.DropRight
import Obscura.Base58

/-! # Seed phrases

A seed is written as words of eleven bits each, the bits of the seed followed by a checksum from its
hash. Every seed of an admitted length is read back from its phrase, and an accepted phrase is, up
to case and spacing, the phrase of the seed it decodes to.

A phrase is the sequence of code points a loop over the string reads.
-/

namespace Obscura.Mnemonic

open Wire

/-! ## The word list -/

/-- The sixteen consonants of the words. -/
def consonants : List Char :=
  ['b', 'd', 'f', 'g', 'h', 'k', 'l', 'm', 'n', 'p', 'r', 's', 't', 'v', 'w', 'z']

/-- The five vowels of the words. -/
def vowels : List Char := ['a', 'e', 'i', 'o', 'u']

/-- The word that `build` files at index `i`. -/
def word (i : Nat) : List Char :=
  let d := i % 5
  let x := i / 5
  let c := x % 16
  let x := x / 16
  let b := x % 5
  let x := x / 5
  let a := x % 16
  [consonants.getD a ' ', vowels.getD b ' ', consonants.getD c ' ', vowels.getD d ' ']

/-- The 2048 words. -/
def wordList : List (List Char) := (List.range 2048).map word

/-- The map `wordIdx`, in which the last index filed under a word stays. -/
def wordIdx (p : List Char) : Option Nat :=
  (List.range 2048).reverse.find? fun i => word i = p

/-! ## Standard library functions on strings -/

/-- `unicode.IsSpace`. -/
def isSpace (c : Char) : Bool :=
  c.toNat ∈ [0x09, 0x0a, 0x0b, 0x0c, 0x0d, 0x20, 0x85, 0xa0, 0x1680, 0x2028, 0x2029, 0x202f, 0x205f,
    0x3000] || (0x2000 ≤ c.toNat && c.toNat ≤ 0x200a)

/-- `strings.TrimSpace`. -/
def trimSpace (s : List Char) : List Char := (s.dropWhile isSpace).rdropWhile isSpace

/-- `strings.Fields`. -/
def fields (s : List Char) : List (List Char) := (s.splitOnP isSpace).filter (· ≠ [])

/-- `strings.Join` with a space. -/
def join (parts : List (List Char)) : List Char := [' '].intercalate parts

/-! ## The codec -/

/-- Bit `i` of a string of bytes, the highest bit of a byte first. -/
def bitAt (bytes : Bytes) (i : Nat) : Nat := (bytes.getD (i / 8) 0).toNat >>> (7 - i % 8) &&& 1

/-- `getBit`: the bits of the seed and then those of its hash. -/
def getBit (entropy h : Bytes) (i : Nat) : Nat :=
  if i < entropy.length * 8 then bitAt entropy i else bitAt h (i - entropy.length * 8)

/-- The bits of a word index, from bit 10 down. -/
def group (idx : Nat) : List Nat := (List.range 11).map fun b => idx >>> (10 - b) &&& 1

/-- The loop that sets the bits of the decoded seed. -/
def setBits (bits : List Nat) (count : Nat) (entropy : Bytes) : Bytes :=
  (List.range count).foldl (fun entropy i =>
    if bits.getD i 0 = 1 then
      entropy.modify (i / 8) fun byte => byte ||| UInt8.ofNat (1 <<< (7 - i % 8))
    else entropy) entropy

section Codec

variable (sha256 : Bytes → Bytes) (toLower : Char → Char) (quoted : List Char → String)

/-- Entropy and its checksum as words. -/
def encode (entropy : Bytes) : Except String (List Char) :=
  if entropy.length < 16 ∨ 32 < entropy.length ∨ entropy.length % 4 ≠ 0 then
    .error "mnemonic: entropy must be 16–32 bytes in 4-byte steps"
  else
    let csBits := entropy.length * 8 / 32
    let h := sha256 entropy
    let totalBits := entropy.length * 8 + csBits
    let n := totalBits / 11
    let parts := (List.range n).map fun w =>
      wordList.getD
        ((List.range 11).foldl (fun idx b => idx <<< 1 ||| getBit entropy h (w * 11 + b)) 0) []
    .ok (join parts)

/-- The words of a phrase, in lower case. -/
def wordsOf (phrase : List Char) : List (List Char) := fields ((trimSpace phrase).map toLower)

/-- The bits of the words. -/
def wordBits : List (List Char) → Except String (List Nat)
  | [] => .ok []
  | p :: parts =>
    match wordIdx p with
    | none => .error ("mnemonic: unknown word " ++ quoted p)
    | some idx => (wordBits parts).map fun bits => group idx ++ bits

/-- The entropy of a phrase whose checksum holds. -/
def decode (phrase : List Char) : Except String Bytes :=
  let parts := wordsOf toLower phrase
  let n := parts.length
  if n < 12 ∨ 24 < n ∨ n % 3 ≠ 0 then
    .error "mnemonic: word count must be 12, 15, 18, 21, or 24"
  else
    let totalBits := n * 11
    let csBits := totalBits / 33
    let entBits := totalBits - csBits
    if entBits % 8 ≠ 0 then
      .error "mnemonic: invalid phrase length"
    else
      match wordBits quoted parts with
      | .error text => .error text
      | .ok bits =>
        let entropy := setBits bits entBits (List.replicate (entBits / 8) 0)
        let h := sha256 entropy
        if ∃ i < csBits, bits.getD (entBits + i) 0 ≠ bitAt h i then
          .error "mnemonic: checksum mismatch (a word is likely mistyped)"
        else .ok entropy

end Codec

/-! ## Words -/

theorem consonant_inj {a b : Nat} (left : a < 16) (right : b < 16)
    (same : consonants.getD a ' ' = consonants.getD b ' ') : a = b := by
  have distinct : ∀ a < 16, ∀ b < 16,
      consonants.getD a ' ' = consonants.getD b ' ' → a = b := by decide
  exact distinct a left b right same

theorem vowel_inj {a b : Nat} (left : a < 5) (right : b < 5)
    (same : vowels.getD a ' ' = vowels.getD b ' ') : a = b := by
  have distinct : ∀ a < 5, ∀ b < 5, vowels.getD a ' ' = vowels.getD b ' ' → a = b := by decide
  exact distinct a left b right same

theorem word_inj {i j : Nat} (left : i < 2048) (right : j < 2048) (same : word i = word j) :
    i = j := by
  simp only [word, List.cons.injEq, and_true] at same
  obtain ⟨first, second, third, fourth⟩ := same
  have a := consonant_inj (Nat.mod_lt _ (by decide)) (Nat.mod_lt _ (by decide)) first
  have b := vowel_inj (Nat.mod_lt _ (by decide)) (Nat.mod_lt _ (by decide)) second
  have c := consonant_inj (Nat.mod_lt _ (by decide)) (Nat.mod_lt _ (by decide)) third
  have d := vowel_inj (Nat.mod_lt _ (by decide)) (Nat.mod_lt _ (by decide)) fourth
  omega

theorem find_reverse_range {n : Nat} {entry : Nat → List Char}
    (distinct : ∀ i < n, ∀ j < n, entry i = entry j → i = j) {p : List Char} {i : Nat} :
    ((List.range n).reverse.find? fun i => entry i = p) = some i ↔ i < n ∧ entry i = p := by
  constructor
  · intro found
    have member := List.mem_of_find?_eq_some found
    have named := List.find?_some found
    exact ⟨List.mem_range.mp (List.mem_reverse.mp member), of_decide_eq_true named⟩
  · rintro ⟨small, rfl⟩
    have among := List.mem_reverse.mpr (List.mem_range.mpr small)
    cases found : (List.range n).reverse.find? fun j => entry j = entry i with
    | none =>
      rw [List.find?_eq_none] at found
      exact absurd (decide_eq_true rfl) (found i among)
    | some j =>
      have member := List.mem_of_find?_eq_some found
      have named := List.find?_some found
      exact congrArg some (distinct j (List.mem_range.mp (List.mem_reverse.mp member)) i small
        (of_decide_eq_true named))

theorem wordIdx_eq_some {p : List Char} {i : Nat} :
    wordIdx p = some i ↔ i < 2048 ∧ word i = p :=
  @find_reverse_range 2048 word (fun _ left _ right same => word_inj left right same) p i

attribute [irreducible] wordIdx

theorem getD_wordList {i : Nat} (small : i < 2048) : wordList.getD i [] = word i := by
  rw [List.getD_eq_getElem?_getD, wordList, List.getElem?_map, List.getElem?_range small]
  rfl

/-- A letter of the words. -/
def Letter (c : Char) : Prop := 'a'.toNat ≤ c.toNat ∧ c.toNat ≤ 'z'.toNat

theorem consonant_letter {a : Nat} (small : a < 16) : Letter (consonants.getD a ' ') := by
  have letters : ∀ a < 16, 'a'.toNat ≤ (consonants.getD a ' ').toNat ∧
      (consonants.getD a ' ').toNat ≤ 'z'.toNat := by decide
  exact letters a small

theorem vowel_letter {a : Nat} (small : a < 5) : Letter (vowels.getD a ' ') := by
  have letters : ∀ a < 5, 'a'.toNat ≤ (vowels.getD a ' ').toNat ∧
      (vowels.getD a ' ').toNat ≤ 'z'.toNat := by decide
  exact letters a small

theorem word_letters (i : Nat) : ∀ c ∈ word i, Letter c := by
  intro c member
  simp only [word, List.mem_cons, List.not_mem_nil, or_false] at member
  rcases member with rfl | rfl | rfl | rfl
  · exact consonant_letter (Nat.mod_lt _ (by decide))
  · exact vowel_letter (Nat.mod_lt _ (by decide))
  · exact consonant_letter (Nat.mod_lt _ (by decide))
  · exact vowel_letter (Nat.mod_lt _ (by decide))

/-- A small letter is no space. -/
theorem Letter.not_space {c : Char} (letter : Letter c) : isSpace c = false := by
  have low : 97 ≤ c.toNat := letter.1
  have high : c.toNat ≤ 122 := letter.2
  rw [isSpace]
  generalize c.toNat = n at low high
  have none : ∀ n, 97 ≤ n → n ≤ 122 → (decide (n ∈ [0x09, 0x0a, 0x0b, 0x0c, 0x0d, 0x20, 0x85, 0xa0,
      0x1680, 0x2028, 0x2029, 0x202f, 0x205f, 0x3000]) || (0x2000 ≤ n && n ≤ 0x200a)) = false := by
    intro n low high
    simp
    omega
  exact none n low high

/-! ## Joining and splitting -/

/-- A nonempty run of letters. -/
def Plain (p : List Char) : Prop := p ≠ [] ∧ ∀ c ∈ p, Letter c

theorem word_plain (i : Nat) : Plain (word i) := ⟨by simp [word], word_letters i⟩

theorem join_singleton (p : List Char) : join [p] = p := by simp [join]

theorem join_cons (p q : List Char) (parts : List (List Char)) :
    join (p :: q :: parts) = p ++ ' ' :: join (q :: parts) := rfl

/-- Fields that are joined come apart again. -/
theorem fields_join {parts : List (List Char)} (plain : ∀ p ∈ parts, Plain p) :
    fields (join parts) = parts := by
  induction parts with
  | nil => simp [fields, join]
  | cons p parts ih =>
    obtain ⟨nonempty, letters⟩ := plain p List.mem_cons_self
    have solid : ∀ c ∈ p, isSpace c = false := fun c member => (letters c member).not_space
    cases parts with
    | nil =>
      rw [join_singleton, fields, List.splitOnP_eq_singleton solid]
      simp [nonempty]
    | cons q parts =>
      have rest := ih fun r member => plain r (List.mem_cons_of_mem _ member)
      rw [join_cons, fields, List.splitOnP_append_cons_of_forall_mem solid ' ' (by decide),
        List.filter_cons, if_pos (by simpa using nonempty)]
      exact congrArg (p :: ·) rest

theorem join_ne_nil {p : List Char} (plain : Plain p) (parts : List (List Char)) :
    join (p :: parts) ≠ [] := by
  cases parts with
  | nil => simpa [join] using plain.1
  | cons q parts =>
    rw [join_cons]
    simp

/-- A joined phrase ends with a letter. -/
theorem join_last {parts : List (List Char)} (plain : ∀ p ∈ parts, Plain p) {c : Char}
    (last : (join parts).getLast? = some c) : Letter c := by
  induction parts with
  | nil => simp [join] at last
  | cons p parts ih =>
    cases parts with
    | nil =>
      rw [join_singleton] at last
      exact (plain p List.mem_cons_self).2 c (List.mem_of_getLast? last)
    | cons q parts =>
      have later : ∀ r ∈ q :: parts, Plain r := fun r member =>
        plain r (List.mem_cons_of_mem _ member)
      have nonempty := join_ne_nil (later q List.mem_cons_self) parts
      refine ih later ?_
      rw [join_cons, List.getLast?_append, List.getLast?_cons,
        List.getLast?_eq_some_getLast nonempty] at last
      rw [List.getLast?_eq_some_getLast nonempty]
      simpa using last

theorem join_first {parts : List (List Char)} (plain : ∀ p ∈ parts, Plain p) {c : Char}
    (first : (join parts).head? = some c) : Letter c := by
  cases parts with
  | nil => simp [join] at first
  | cons p parts =>
    obtain ⟨nonempty, letters⟩ := plain p List.mem_cons_self
    cases parts with
    | nil =>
      rw [join_singleton] at first
      exact letters c (List.mem_of_head? first)
    | cons q parts =>
      rw [join_cons, List.head?_append_of_ne_nil _ nonempty] at first
      exact letters c (List.mem_of_head? first)

theorem trimSpace_join {parts : List (List Char)} (plain : ∀ p ∈ parts, Plain p) :
    trimSpace (join parts) = join parts := by
  have front : (join parts).dropWhile isSpace = join parts := by
    cases joined : join parts with
    | nil => rfl
    | cons c rest =>
      have letter := join_first plain (c := c) (by rw [joined]; rfl)
      rw [List.dropWhile_cons, letter.not_space, if_neg Bool.false_ne_true]
  rw [trimSpace, front, List.rdropWhile_eq_self_iff]
  intro nonempty
  have letter := join_last plain (List.getLast?_eq_some_getLast nonempty)
  rw [letter.not_space]
  exact Bool.false_ne_true

/-- What stands in joined words. -/
theorem mem_join {parts : List (List Char)} {c : Char} (member : c ∈ join parts) :
    c = ' ' ∨ ∃ p ∈ parts, c ∈ p := by
  induction parts with
  | nil => simp [join] at member
  | cons p parts ih =>
    cases parts with
    | nil =>
      rw [join_singleton] at member
      exact .inr ⟨p, List.mem_cons_self, member⟩
    | cons q parts =>
      rw [join_cons, List.mem_append, List.mem_cons] at member
      rcases member with member | rfl | member
      · exact .inr ⟨p, List.mem_cons_self, member⟩
      · exact .inl rfl
      · rcases ih member with space | ⟨r, among, inside⟩
        · exact .inl space
        · exact .inr ⟨r, List.mem_cons_of_mem _ among, inside⟩

theorem map_join {toLower : Char → Char}
    (plain : ∀ c, Letter c ∨ c = ' ' → toLower c = c) {parts : List (List Char)}
    (letters : ∀ p ∈ parts, Plain p) : (join parts).map toLower = join parts := by
  refine (List.map_congr_left fun c member => ?_).trans (List.map_id _)
  rcases mem_join member with space | ⟨p, among, inside⟩
  · exact plain c (.inr space)
  · exact plain c (.inl ((letters p among).2 c inside))

theorem wordsOf_join {toLower : Char → Char}
    (plain : ∀ c, Letter c ∨ c = ' ' → toLower c = c) {parts : List (List Char)}
    (letters : ∀ p ∈ parts, Plain p) : wordsOf toLower (join parts) = parts := by
  rw [wordsOf, trimSpace_join letters, map_join plain letters, fields_join letters]

/-! ## Bits -/

theorem bit_eq (x k : Nat) : x >>> k &&& 1 = x / 2 ^ k % 2 := by
  rw [Nat.shiftRight_eq_div_pow, Nat.and_one_is_mod]

theorem bit_lt (x k : Nat) : x >>> k &&& 1 < 2 := by
  rw [bit_eq]
  exact Nat.mod_lt _ two_pos

/-- The number that the loop over `n` bits builds. -/
def packBits (f : Nat → Nat) (n : Nat) : Nat :=
  (List.range n).foldl (fun idx b => idx <<< 1 ||| f b) 0

theorem packBits_succ {f : Nat → Nat} {n : Nat} (bit : f n < 2) :
    packBits f (n + 1) = packBits f n * 2 + f n := by
  rw [packBits, List.range_succ, List.foldl_append]
  change packBits f n <<< 1 ||| f n = _
  rw [Nat.shiftLeft_eq, pow_one, Nat.mul_comm, ← Nat.two_pow_add_eq_or_of_lt (i := 1) bit, pow_one]

theorem packBits_congr {f g : Nat → Nat} {n : Nat} (same : ∀ b < n, f b = g b) :
    packBits f n = packBits g n :=
  List.foldl_ext _ _ _ fun idx b member => by rw [same b (List.mem_range.mp member)]

theorem packBits_lt {f : Nat → Nat} {n : Nat} (bits : ∀ b < n, f b < 2) : packBits f n < 2 ^ n := by
  induction n with
  | zero => exact Nat.one_pos
  | succ n ih =>
    have before := ih fun b inside => bits b (Nat.lt_succ_of_lt inside)
    have last := bits n (Nat.lt_succ_self n)
    rw [packBits_succ last, pow_succ]
    omega

/-- The bits of a packed number. -/
theorem packBits_bit {f : Nat → Nat} {n : Nat} (bits : ∀ b < n, f b < 2) {b : Nat}
    (inside : b < n) :
    packBits f n >>> (n - 1 - b) &&& 1 = f b := by
  induction n with
  | zero => exact absurd inside (Nat.not_lt_zero b)
  | succ n ih =>
    have last := bits n (Nat.lt_succ_self n)
    rw [packBits_succ last, bit_eq]
    rcases Nat.lt_succ_iff_lt_or_eq.mp inside with earlier | rfl
    · have before := ih (fun b inside => bits b (Nat.lt_succ_of_lt inside)) earlier
      have place : n + 1 - 1 - b = n - 1 - b + 1 := by omega
      have half : (packBits f n * 2 + f n) / 2 = packBits f n := by omega
      rw [place, pow_succ', ← Nat.div_div_eq_div_mul, half, ← bit_eq]
      exact before
    · rw [Nat.add_sub_cancel, Nat.sub_self, pow_zero, Nat.div_one]
      omega

theorem packBits_self {x n : Nat} (small : x < 2 ^ n) {f : Nat → Nat}
    (bits : ∀ b < n, f b = x >>> (n - 1 - b) &&& 1) : packBits f n = x := by
  induction n generalizing x with
  | zero =>
    obtain rfl : x = 0 := by simpa using small
    rfl
  | succ n ih =>
    have last := bits n (Nat.lt_succ_self n)
    have half : x / 2 < 2 ^ n := by
      rw [pow_succ] at small
      omega
    have before := ih half fun b inside => by
      have place : n + 1 - 1 - b = n - 1 - b + 1 := by omega
      rw [bits b (Nat.lt_succ_of_lt inside), bit_eq, bit_eq, place, pow_succ',
        ← Nat.div_div_eq_div_mul]
    have low : f n = x % 2 := by
      rw [last, bit_eq, Nat.add_sub_cancel, Nat.sub_self, pow_zero, Nat.div_one]
    rw [packBits_succ (by omega), before, low]
    omega

theorem bitAt_lt (bytes : Bytes) (i : Nat) : bitAt bytes i < 2 := bit_lt _ _

theorem getBit_lt (entropy h : Bytes) (i : Nat) : getBit entropy h i < 2 := by
  rw [getBit]
  split_ifs
  · exact bitAt_lt _ _
  · exact bitAt_lt _ _

/-- Bytes with the same bits are the same. -/
theorem bytes_ext {left right : Bytes} (length : left.length = right.length)
    (bits : ∀ i < left.length * 8, bitAt left i = bitAt right i) : left = right := by
  refine List.ext_getElem length fun k first second => ?_
  have byte : ∀ bytes : Bytes, ∀ inside : k < bytes.length,
      packBits (fun j => bitAt bytes (8 * k + j)) 8 = (bytes[k]).toNat := by
    intro bytes inside
    refine packBits_self (bytes[k]).toNat_lt fun j small => ?_
    have place : (8 * k + j) / 8 = k := by omega
    have offset : (8 * k + j) % 8 = j := by omega
    rw [bitAt, place, offset, List.getD_eq_getElem?_getD, List.getElem?_eq_getElem inside]
    rfl
  rw [← UInt8.toNat_inj, ← byte left first, ← byte right second]
  refine packBits_congr fun j small => bits _ ?_
  omega

/-- Setting a bit of a byte. -/
theorem bit_set (byte : UInt8) {s s' : Nat} (small : s < 8) :
    (byte ||| UInt8.ofNat (1 <<< s)).toNat >>> s' &&& 1 =
      if s = s' then 1 else byte.toNat >>> s' &&& 1 := by
  have power : (UInt8.ofNat (1 <<< s)).toNat = 2 ^ s := by
    rw [Nat.one_shiftLeft, UInt8.toNat_ofNat']
    exact Nat.mod_eq_of_lt (Nat.pow_lt_pow_right (by decide) small)
  have read : ∀ x : Nat, x >>> s' &&& 1 = (x.testBit s').toNat := fun x => by
    rw [bit_eq, Nat.toNat_testBit]
  rw [UInt8.toNat_or, power, read, read, Nat.testBit_or, Nat.testBit_two_pow]
  by_cases same : s = s'
  · simp [same]
  · simp [same]

/-- Setting a bit. -/
theorem bitAt_modify {bytes : Bytes} {place i : Nat} (inside : place / 8 < bytes.length) :
    bitAt (bytes.modify (place / 8) fun byte => byte ||| UInt8.ofNat (1 <<< (7 - place % 8))) i =
      if place = i then 1 else bitAt bytes i := by
  rw [bitAt, bitAt, List.getD_eq_getElem?_getD, List.getD_eq_getElem?_getD, List.getElem?_modify]
  by_cases byte : place / 8 = i / 8
  · rw [← byte, List.getElem?_eq_getElem inside]
    simp only [if_true, Option.map_eq_map, Option.map_some, Option.getD_some]
    rw [bit_set _ (by omega)]
    have same : 7 - place % 8 = 7 - i % 8 ↔ place = i := by omega
    simp only [same]
  · have different : place ≠ i := fun same => byte (by rw [same])
    rw [if_neg different]
    cases bytes[i / 8]? with
    | none => rfl
    | some x => simp [byte]

theorem length_setBits (bits : List Nat) (count : Nat) (entropy : Bytes) :
    (setBits bits count entropy).length = entropy.length := by
  induction count with
  | zero => rfl
  | succ count ih =>
    rw [setBits, List.range_succ, List.foldl_append, List.foldl_cons, List.foldl_nil]
    change (if bits.getD count 0 = 1 then (setBits bits count entropy).modify _ _
      else setBits bits count entropy).length = _
    split_ifs
    · rw [List.length_modify, ih]
    · exact ih

/-- The bits set so far. -/
theorem bitAt_setBits {bits : List Nat} {count width : Nat} (room : count ≤ width * 8) (i : Nat) :
    bitAt (setBits bits count (List.replicate width 0)) i =
      if i < count ∧ bits.getD i 0 = 1 then 1 else 0 := by
  induction count with
  | zero =>
    rw [if_neg (fun both => absurd both.1 (Nat.not_lt_zero i)), setBits, List.range_zero,
      List.foldl_nil, bitAt, List.getD_eq_getElem?_getD, List.getElem?_replicate]
    split_ifs
    · simp
    · simp
  | succ count ih =>
    have before := ih (Nat.le_of_succ_le room)
    have length := length_setBits bits count (List.replicate width 0)
    rw [List.length_replicate] at length
    rw [setBits, List.range_succ, List.foldl_append, List.foldl_cons, List.foldl_nil]
    change bitAt (if bits.getD count 0 = 1 then
        (setBits bits count (List.replicate width 0)).modify _ _
      else setBits bits count (List.replicate width 0)) i = _
    by_cases one : bits.getD count 0 = 1
    · rw [if_pos one, bitAt_modify (by rw [length]; omega), before]
      by_cases here : count = i
      · rw [if_pos here, if_pos ⟨by omega, here ▸ one⟩]
      · rw [if_neg here]
        have same : i < count ∧ bits.getD i 0 = 1 ↔ i < count + 1 ∧ bits.getD i 0 = 1 := by
          have less : i < count ↔ i < count + 1 := by omega
          rw [less]
        simp only [same]
    · rw [if_neg one, before]
      have same : i < count ∧ bits.getD i 0 = 1 ↔ i < count + 1 ∧ bits.getD i 0 = 1 := by
        constructor
        · rintro ⟨less, set⟩
          exact ⟨Nat.lt_succ_of_lt less, set⟩
        · rintro ⟨less, set⟩
          refine ⟨lt_of_le_of_ne (Nat.lt_succ_iff.mp less) fun last => one ?_, set⟩
          rwa [← last]
      simp only [same]

/-! ## Words as bits -/

theorem length_group (idx : Nat) : (group idx).length = 11 := by simp [group]

/-- The bits of a list of indices. -/
theorem getD_groups {idxs : List Nat} {i : Nat} (inside : i < 11 * idxs.length) :
    (idxs.flatMap group).getD i 0 = idxs.getD (i / 11) 0 >>> (10 - i % 11) &&& 1 := by
  induction idxs generalizing i with
  | nil => exact absurd inside (Nat.not_lt_zero i)
  | cons idx idxs ih =>
    rw [List.flatMap_cons, List.getD_eq_getElem?_getD]
    rcases Nat.lt_or_ge i 11 with first | later
    · have zero : i / 11 = 0 := Nat.div_eq_of_lt first
      rw [List.getElem?_append_left (by rw [length_group]; exact first), zero,
        Nat.mod_eq_of_lt first, group, List.getElem?_map, List.getElem?_range first]
      rfl
    · obtain ⟨j, rfl⟩ := Nat.exists_eq_add_of_le' later
      have quotient : (j + 11) / 11 = j / 11 + 1 := Nat.add_div_right j (by decide)
      have rest := ih (i := j) (by rw [List.length_cons] at inside; omega)
      rw [List.getElem?_append_right (by rw [length_group]; exact later), length_group,
        Nat.add_sub_cancel, ← List.getD_eq_getElem?_getD, rest, quotient, Nat.add_mod_right,
        List.getD_cons_succ]

section Codec

variable {sha256 : Bytes → Bytes} {toLower : Char → Char} {quoted : List Char → String}

theorem wordBits_cons (p : List Char) (parts : List (List Char)) :
    wordBits quoted (p :: parts) =
      match wordIdx p with
      | none => .error ("mnemonic: unknown word " ++ quoted p)
      | some idx => (wordBits quoted parts).map fun bits => group idx ++ bits := rfl

/-- The bits of a list of words. -/
theorem wordBits_words {idxs : List Nat} (small : ∀ idx ∈ idxs, idx < 2048) :
    wordBits quoted (idxs.map word) = .ok (idxs.flatMap group) := by
  induction idxs with
  | nil => rfl
  | cons idx idxs ih =>
    have found : wordIdx (word idx) = some idx :=
      wordIdx_eq_some.mpr ⟨small idx List.mem_cons_self, rfl⟩
    have rest := ih fun i member => small i (List.mem_cons_of_mem _ member)
    rw [List.map_cons, wordBits_cons, found, rest, List.flatMap_cons]
    rfl

/-- What has bits is a list of words. -/
theorem words_of_wordBits {parts : List (List Char)} {bits : List Nat}
    (read : wordBits quoted parts = .ok bits) :
    ∃ idxs : List Nat, (∀ idx ∈ idxs, idx < 2048) ∧ parts = idxs.map word ∧
      bits = idxs.flatMap group := by
  induction parts generalizing bits with
  | nil =>
    obtain rfl := Except.ok.inj read
    exact ⟨[], by simp, rfl, rfl⟩
  | cons p parts ih =>
    rw [wordBits_cons] at read
    cases found : wordIdx p with
    | none => rw [found] at read; exact nomatch read
    | some idx =>
      rw [found] at read
      cases rest : wordBits quoted parts with
      | error text => rw [rest] at read; exact nomatch read
      | ok bits' =>
        rw [rest] at read
        obtain rfl := Except.ok.inj read
        obtain ⟨idxs, small, rfl, rfl⟩ := ih rest
        obtain ⟨below, rfl⟩ := wordIdx_eq_some.mp found
        refine ⟨idx :: idxs, fun i member => ?_, rfl, rfl⟩
        rcases List.mem_cons.mp member with rfl | member
        · exact below
        · exact small i member

/-! ## The two directions -/

/-- The index of word `w` of a seed. -/
def seedIdx (entropy h : Bytes) (w : Nat) : Nat :=
  packBits (fun b => getBit entropy h (w * 11 + b)) 11

theorem seedIdx_lt (entropy h : Bytes) (w : Nat) : seedIdx entropy h w < 2048 :=
  packBits_lt fun _ _ => getBit_lt _ _ _

theorem encode_eq {entropy : Bytes} {m : Nat} (length : entropy.length = 4 * m) (least : 4 ≤ m)
    (most : m ≤ 8) : encode sha256 entropy =
      .ok (join (((List.range (3 * m)).map (seedIdx entropy (sha256 entropy))).map word)) := by
  have words : (entropy.length * 8 + entropy.length * 8 / 32) / 11 = 3 * m := by omega
  rw [encode, if_neg (by omega)]
  dsimp only
  rw [words, List.map_map]
  refine congrArg (fun parts => Except.ok (join parts)) (List.map_congr_left fun w _ => ?_)
  exact getD_wordList (seedIdx_lt entropy (sha256 entropy) w)

/-- The seed that the words spell, and its checksum. -/
theorem decode_words {phrase : List Char} {idxs : List Nat} {m : Nat}
    (small : ∀ idx ∈ idxs, idx < 2048) (length : idxs.length = 3 * m) (least : 4 ≤ m) (most : m ≤ 8)
    (words : wordsOf toLower phrase = idxs.map word) (entropy : Bytes)
    (spelled : entropy = setBits (idxs.flatMap group) (32 * m) (List.replicate (4 * m) 0)) :
    decode sha256 toLower quoted phrase =
      if ∃ i < m, (idxs.flatMap group).getD (32 * m + i) 0 ≠ bitAt (sha256 entropy) i then
        .error "mnemonic: checksum mismatch (a word is likely mistyped)"
      else .ok entropy := by
  have count : (wordsOf toLower phrase).length = 3 * m := by rw [words, List.length_map, length]
  have total : 3 * m * 11 / 33 = m := by omega
  have rest : 3 * m * 11 - m = 32 * m := by omega
  have bytes : 32 * m / 8 = 4 * m := by omega
  rw [decode]
  dsimp only
  rw [count, if_neg (by omega), total, rest, if_neg (by omega), words, wordBits_words small, bytes,
    spelled]

/-- Decoding undoes encoding. -/
theorem decode_encode (plain : ∀ c, Letter c ∨ c = ' ' → toLower c = c) {entropy : Bytes}
    (least : 16 ≤ entropy.length) (most : entropy.length ≤ 32) (steps : entropy.length % 4 = 0) :
    ∃ phrase, encode sha256 entropy = .ok phrase ∧
      decode sha256 toLower quoted phrase = .ok entropy := by
  obtain ⟨m, length⟩ : ∃ m, entropy.length = 4 * m := ⟨entropy.length / 4, by omega⟩
  obtain ⟨idxs, written⟩ :
      ∃ idxs, idxs = (List.range (3 * m)).map (seedIdx entropy (sha256 entropy)) := ⟨_, rfl⟩
  have small : ∀ idx ∈ idxs, idx < 2048 := by
    intro idx member
    rw [written] at member
    obtain ⟨w, -, rfl⟩ := List.mem_map.mp member
    exact seedIdx_lt _ _ w
  have count : idxs.length = 3 * m := by rw [written, List.length_map, List.length_range]
  have bits : ∀ i < 33 * m,
      (idxs.flatMap group).getD i 0 = getBit entropy (sha256 entropy) i := by
    intro i inside
    have w : i / 11 < 3 * m := by omega
    have read := packBits_bit (f := fun b => getBit entropy (sha256 entropy) (i / 11 * 11 + b))
      (n := 11) (fun _ _ => getBit_lt _ _ _) (Nat.mod_lt i (by decide))
    have place : i / 11 * 11 + i % 11 = i := by omega
    rw [place] at read
    rw [getD_groups (by rw [count]; omega), written, List.getD_eq_getElem?_getD, List.getElem?_map,
      List.getElem?_range w]
    exact read
  refine ⟨join (idxs.map word), written ▸ encode_eq length (by omega) (by omega), ?_⟩
  have words : wordsOf toLower (join (idxs.map word)) = idxs.map word := by
    refine wordsOf_join plain fun p member => ?_
    obtain ⟨idx, -, rfl⟩ := List.mem_map.mp member
    exact word_plain idx
  have spelled : entropy = setBits (idxs.flatMap group) (32 * m) (List.replicate (4 * m) 0) := by
    refine bytes_ext (by rw [length_setBits, List.length_replicate, length]) fun i inside => ?_
    have seed : getBit entropy (sha256 entropy) i = bitAt entropy i := if_pos inside
    have bit := bitAt_lt entropy i
    rw [bitAt_setBits (by omega), bits i (by omega), seed]
    split_ifs with set
    · exact set.2
    · omega
  rw [decode_words small count (by omega) (by omega) words entropy spelled, if_neg]
  rintro ⟨i, inside, differs⟩
  refine differs ?_
  have tail : ¬ 32 * m + i < entropy.length * 8 := by omega
  have offset : 32 * m + i - entropy.length * 8 = i := by omega
  rw [bits _ (by omega), getBit, if_neg tail, offset]

/-- The phrase in lower case with single spaces between its words. -/
def normalise (toLower : Char → Char) (phrase : List Char) : List Char :=
  join (wordsOf toLower phrase)

/-- Encoding undoes decoding, up to case and spaces. -/
theorem encode_decode {phrase : List Char} {entropy : Bytes}
    (decoded : decode sha256 toLower quoted phrase = .ok entropy) :
    encode sha256 entropy = .ok (normalise toLower phrase) := by
  have accepted := decoded
  rw [decode] at decoded
  dsimp only at decoded
  split_ifs at decoded with counted whole
  cases read : wordBits quoted (wordsOf toLower phrase) with
  | error text => rw [read] at decoded; exact nomatch decoded
  | ok bits =>
    clear decoded
    obtain ⟨idxs, small, words, -⟩ := words_of_wordBits read
    obtain ⟨m, count⟩ : ∃ m, idxs.length = 3 * m := by
      have length := congrArg List.length words
      rw [List.length_map] at length
      exact ⟨idxs.length / 3, by omega⟩
    have length := congrArg List.length words
    rw [List.length_map] at length
    obtain ⟨entropy', spelled⟩ : ∃ entropy', entropy' =
      setBits (idxs.flatMap group) (32 * m) (List.replicate (4 * m) 0) := ⟨_, rfl⟩
    rw [decode_words small count (by omega) (by omega) words entropy' spelled] at accepted
    split_ifs at accepted with mismatch
    obtain rfl := Except.ok.inj accepted
    have size : entropy'.length = 4 * m := by
      rw [spelled, length_setBits, List.length_replicate]
    rw [normalise, words, encode_eq size (by omega) (by omega)]
    refine congrArg (fun idxs => Except.ok (join (List.map word idxs))) ?_
    -- the bits of the seed and of its hash are those of the words
    have bits : ∀ i < 33 * m, getBit entropy' (sha256 entropy') i =
        (idxs.flatMap group).getD i 0 := by
      intro i inside
      have bit : (idxs.flatMap group).getD i 0 < 2 := by
        rw [getD_groups (by omega)]
        exact bit_lt _ _
      rw [getBit]
      split_ifs with seed
      · rw [spelled, bitAt_setBits (by omega : 32 * m ≤ 4 * m * 8)]
        split_ifs with one
        · exact one.2.symm
        · omega
      · obtain ⟨j, rfl⟩ := Nat.exists_eq_add_of_le (by omega : 32 * m ≤ i)
        have offset : 32 * m + j - entropy'.length * 8 = j := by omega
        rw [offset]
        exact (not_not.mp fun differs => mismatch ⟨j, by omega, differs⟩).symm
    refine List.ext_getElem (by simp [count]) fun w left right => ?_
    rw [List.getElem_map, List.getElem_range]
    refine packBits_self (small _ (List.getElem_mem right)) fun b inside => ?_
    have quotient : (w * 11 + b) / 11 = w := by omega
    have offset : (w * 11 + b) % 11 = b := by omega
    rw [bits _ (by omega), getD_groups (by omega), quotient, offset, List.getD_eq_getElem?_getD,
      List.getElem?_eq_getElem right]
    rfl

/-- Both codecs are exact: base 58 inverts in both directions on nonempty byte strings, every seed
of an admitted length is read back from its phrase, and an accepted phrase is the phrase of its
seed, so that phrases of one seed are the same up to case and spacing. -/
theorem codecs_exact (plain : ∀ c, Letter c ∨ c = ' ' → toLower c = c) :
    (∀ b : Bytes, b ≠ [] → Base58.decode (Base58.encode b) = .ok b) ∧
    (∀ s b : Bytes, Base58.decode s = .ok b → Base58.encode b = s) ∧
    (∀ entropy : Bytes, 16 ≤ entropy.length → entropy.length ≤ 32 → entropy.length % 4 = 0 →
      ∃ phrase, encode sha256 entropy = .ok phrase ∧
        decode sha256 toLower quoted phrase = .ok entropy) ∧
    (∀ (phrase : List Char) (entropy : Bytes),
      decode sha256 toLower quoted phrase = .ok entropy →
        encode sha256 entropy = .ok (normalise toLower phrase)) ∧
    (∀ (phrase phrase' : List Char) (entropy : Bytes),
      decode sha256 toLower quoted phrase = .ok entropy →
      decode sha256 toLower quoted phrase' = .ok entropy →
        normalise toLower phrase = normalise toLower phrase') := by
  refine ⟨fun b => Base58.decode_encode, fun s b => Base58.encode_decode,
    fun entropy least most steps => decode_encode plain least most steps,
    fun phrase entropy => encode_decode, fun phrase phrase' entropy first second => ?_⟩
  have same := (encode_decode first).symm.trans (encode_decode second)
  exact Except.ok.inj same

end Codec

/-- The lower case of a code point, on ASCII. -/
def lowerASCII (c : Char) : Char := if 'A' ≤ c ∧ c ≤ 'Z' then Char.ofNat (c.toNat + 32) else c

theorem lowerASCII_plain (c : Char) (plain : Letter c ∨ c = ' ') : lowerASCII c = c := by
  rw [lowerASCII, if_neg]
  rintro ⟨least, most⟩
  have above : 65 ≤ c.toNat := least
  have below : c.toNat ≤ 90 := most
  rcases plain with ⟨lower, -⟩ | rfl
  · have small : 97 ≤ c.toNat := lower
    omega
  · exact absurd above (by decide)

theorem codecs_exact_zeros :
    ∃ phrase, encode (fun _ => List.replicate 32 0) (List.replicate 16 0) = .ok phrase ∧
      decode (fun _ => List.replicate 32 0) lowerASCII String.ofList phrase =
        .ok (List.replicate 16 0) :=
  (codecs_exact lowerASCII_plain).2.2.1 (List.replicate 16 0) (by decide) (by decide) (by decide)

end Obscura.Mnemonic
