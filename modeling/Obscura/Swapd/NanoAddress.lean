import Obscura.Lib.Wire

/-! # Nano addresses

The base-32 encoding of a Nano account with its checksum, and its parser. What the
encoder writes for a public key of 32 bytes the parser reads back.
-/

namespace Obscura.Swapd

open Wire

/-! ## Base 32 -/

/-- The digits of an address. -/
def nanoAlphabet : Bytes := ascii "13456789abcdefghijkmnopqrstuwxyz"

/-- The value of a digit. -/
def nanoDecodeRune (r : UInt8) : Option Nat := nanoAlphabet.idxOf? r

/-- The low `chars` base-32 digits of a number, most significant first. -/
def base32 : (chars : Nat) → Nat → Bytes
  | 0, _ => []
  | chars + 1, v => base32 chars (v >>> 5) ++ [nanoAlphabet.getD (v % 32) 0]

/-- `encodeBase32Bits`. -/
def encodeBase32Bits (data : Bytes) (chars : Nat) : Bytes := base32 chars (ofBigEndian data)

/-- A byte under `%q`: between single quotes, the rune of that number, escaped unless it prints. -/
def quotedByte (b : UInt8) : String :=
  let rune := String.singleton (Char.ofNat b.toNat)
  let digits := Nat.toDigits 16 b.toNat
  let hex := String.ofList (List.replicate (2 - digits.length) '0' ++ digits)
  let body :=
    if b = 39 ∨ b = 92 then "\\" ++ rune
    else if 32 ≤ b ∧ b < 127 ∨ 161 ≤ b ∧ b ≠ 173 then rune
    else if 7 ≤ b ∧ b ≤ 13 then
      "\\" ++ String.singleton ("abtnvfr".toList.getD (b.toNat - 7) 'a')
    else if b < 32 ∨ b = 127 then "\\x" ++ hex
    else "\\u00" ++ hex
  "'" ++ body ++ "'"

/-- The first character that is none of the alphabet, where the loop stops. -/
def notDigit (decode : UInt8 → Option Nat) (s : Bytes) : String :=
  (s.find? fun r => (decode r).isNone).elim "" quotedByte

/-- `decodeBase32Bits`: every character a digit, and no bit beyond the bytes. -/
def decodeBase32Bits (s : Bytes) (byteLen : Nat) : Except String Bytes :=
  match s.foldlM (fun v r => (nanoDecodeRune r).map fun d => v <<< 5 ||| d) 0 with
  | none => .error ("swapd: invalid base32 char " ++ notDigit nanoDecodeRune s)
  | some v => .ok (bigEndian byteLen v)

@[simp] theorem length_base32 (chars v : Nat) : (base32 chars v).length = chars := by
  induction chars generalizing v with
  | zero => rfl
  | succ chars ih => rw [base32, List.length_append, ih, List.length_singleton]

theorem nanoDecodeRune_digit {d : Nat} (small : d < 32) :
    nanoDecodeRune (nanoAlphabet.getD d 0) = some d := by
  revert d
  decide

theorem shift_or {v d : Nat} (small : d < 32) : v <<< 5 ||| d = v * 32 + d := by
  rw [Nat.shiftLeft_eq, Nat.mul_comm v, ← Nat.two_pow_add_eq_or_of_lt (i := 5) small v]

/-- The digits are read as their number. -/
theorem decode_base32 (chars v : Nat) :
    (base32 chars v).foldlM (fun v r => (nanoDecodeRune r).map fun d => v <<< 5 ||| d) 0 =
      some (v % 32 ^ chars) := by
  induction chars generalizing v with
  | zero => rw [pow_zero, Nat.mod_one]; rfl
  | succ chars ih =>
    have digit : v % 32 < 32 := Nat.mod_lt v (by decide)
    have split : v % 32 ^ (chars + 1) = v / 32 % 32 ^ chars * 32 + v % 32 := by
      rw [pow_succ', Nat.mod_mul]
      ring
    rw [base32, List.foldlM_append, ih, Nat.shiftRight_eq_div_pow]
    simp only [Option.bind_eq_bind, Option.bind_some, List.foldlM_cons, List.foldlM_nil,
      nanoDecodeRune_digit digit, Option.map_some, Option.pure_def]
    rw [shift_or digit, split]

/-- Decoding undoes encoding. -/
theorem decode_encodeBase32Bits {data : Bytes} {chars byteLen : Nat}
    (length : data.length = byteLen) (fits : 256 ^ byteLen ≤ 32 ^ chars) :
    decodeBase32Bits (encodeBase32Bits data chars) byteLen = .ok data := by
  have bound := ofBigEndian_lt data
  rw [length] at bound
  rw [decodeBase32Bits, encodeBase32Bits, decode_base32, Nat.mod_eq_of_lt (bound.trans_le fits)]
  simp only
  rw [bigEndian_ofBigEndian length]

theorem nanoDecodeRune_some {r : UInt8} {d : Nat} (found : nanoDecodeRune r = some d) :
    d < 32 ∧ nanoAlphabet.getD d 0 = r := by
  rw [nanoDecodeRune, List.idxOf?, List.findIdx?_eq_some_iff_getElem] at found
  obtain ⟨inside, same, -⟩ := found
  refine ⟨inside, ?_⟩
  rw [List.getD_eq_getElem?_getD, List.getElem?_eq_getElem inside, Option.getD_some]
  exact beq_iff_eq.mp same

/-- What is read as a number are its digits. -/
theorem base32_of_decoded {s : Bytes} {v : Nat}
    (decoded : s.foldlM (fun v r => (nanoDecodeRune r).map fun d => v <<< 5 ||| d) 0 = some v) :
    v < 32 ^ s.length ∧ base32 s.length v = s := by
  induction s using List.reverseRecOn generalizing v with
  | nil =>
    obtain rfl := Option.some.inj decoded
    exact ⟨Nat.one_pos, rfl⟩
  | append_singleton s r ih =>
    rw [List.foldlM_append, Option.bind_eq_bind, Option.bind_eq_some_iff] at decoded
    obtain ⟨high, first, last⟩ := decoded
    obtain ⟨bound, digits⟩ := ih first
    simp only [List.foldlM_cons, List.foldlM_nil, Option.bind_eq_bind, Option.pure_def,
      Option.bind_fun_some, Option.map_eq_some_iff] at last
    obtain ⟨d, found, rfl⟩ := last
    obtain ⟨small, named⟩ := nanoDecodeRune_some found
    have above : (high * 32 + d) >>> 5 = high := by
      rw [Nat.shiftRight_eq_div_pow]
      omega
    have below : (high * 32 + d) % 32 = d := by omega
    rw [shift_or small, List.length_append, List.length_singleton]
    refine ⟨by rw [pow_succ]; omega, ?_⟩
    rw [base32, above, below, digits, named]

theorem decodeBase32Bits_ok {s bytes : Bytes} {byteLen : Nat}
    (decoded : decodeBase32Bits s byteLen = .ok bytes) :
    ∃ v < 32 ^ s.length, base32 s.length v = s ∧ bytes = bigEndian byteLen v := by
  rw [decodeBase32Bits] at decoded
  split at decoded
  · exact nomatch decoded
  next v read =>
  obtain ⟨bound, digits⟩ := base32_of_decoded read
  exact ⟨v, bound, digits, (Except.ok.inj decoded).symm⟩

theorem base32_succ_left (chars v : Nat) :
    base32 (chars + 1) v = nanoAlphabet.getD (v / 32 ^ chars % 32) 0 :: base32 chars v := by
  induction chars generalizing v with
  | zero =>
    rw [base32, pow_zero, Nat.div_one]
    rfl
  | succ chars ih =>
    have higher : v >>> 5 / 32 ^ chars = v / 32 ^ (chars + 1) := by
      rw [Nat.shiftRight_eq_div_pow, Nat.div_div_eq_div_mul, ← Nat.pow_succ']
    rw [base32, ih, higher, base32, List.cons_append]

/-! ## Addresses -/

section Address

variable (blake2b40 : Bytes → Bytes)

/-- `EncodeNanoAddress` of a public key of 32 bytes; `blake2b40` is the 5-byte hash. -/
def nanoAddress (pub : Bytes) : Bytes :=
  ascii "nano_" ++ (encodeBase32Bits pub 52 ++ encodeBase32Bits (blake2b40 pub).reverse 8)

/-- `EncodeNanoAddress`: the key's digits and those of its checksum. -/
def encodeNanoAddress (pub : Bytes) : Except String Bytes :=
  if pub.length ≠ 32 then .error "swapd: nano pubkey must be 32 bytes"
  else .ok (nanoAddress blake2b40 pub)

/-- The address without its prefix. -/
def stripNanoPrefix (addr : Bytes) : Option Bytes :=
  if (ascii "nano_").isPrefixOf addr then some (addr.drop 5)
  else if (ascii "xrb_").isPrefixOf addr then some (addr.drop 4)
  else none

/-- `DecodeNanoAddress`: prefix, length, digits and checksum. -/
def decodeNanoAddress (addr : Bytes) : Except String Bytes :=
  match stripNanoPrefix addr with
  | none => .error "swapd: address must start with nano_ or xrb_"
  | some a =>
    if a.length ≠ 60 then
      .error "swapd: bad nano address length"
    else do
      let pub ← decodeBase32Bits (a.take 52) 32
      let csBytes ← decodeBase32Bits (a.drop 52) 5
      if csBytes ≠ (blake2b40 pub).reverse then throw "swapd: nano address checksum mismatch"
      else pure pub

theorem stripNanoPrefix_nano (rest : Bytes) :
    stripNanoPrefix (ascii "nano_" ++ rest) = some rest := by
  have written : (ascii "nano_").isPrefixOf (ascii "nano_" ++ rest) = true :=
    List.isPrefixOf_iff_prefix.mpr (List.prefix_append _ rest)
  rw [stripNanoPrefix, if_pos written]
  exact congrArg some (List.drop_left' rfl)

/-- An address decodes to its key. -/
theorem decode_nanoAddress {pub : Bytes} (length : pub.length = 32)
    (checksum : (blake2b40 pub).length = 5) :
    decodeNanoAddress blake2b40 (nanoAddress blake2b40 pub) = .ok pub := by
  have account : (encodeBase32Bits pub 52).length = 52 := length_base32 52 _
  have check : (encodeBase32Bits (blake2b40 pub).reverse 8).length = 8 := length_base32 8 _
  rw [decodeNanoAddress, nanoAddress, stripNanoPrefix_nano]
  simp only
  rw [if_neg (by rw [List.length_append, account, check]; decide),
    List.take_left' account, List.drop_left' account,
    decode_encodeBase32Bits length (by decide),
    decode_encodeBase32Bits (by rw [List.length_reverse, checksum]) (by decide)]
  simp [bind, Except.bind, pure, Except.pure]

variable {blake2b40} in
/-- What an accepted address consists of: the digits of a number whose low 256 bits are the key,
and those of the checksum. -/
theorem decodeNanoAddress_ok {addr pub : Bytes}
    (decoded : decodeNanoAddress blake2b40 addr = .ok pub) :
    ∃ v < 32 ^ 52, pub = bigEndian 32 v ∧
      stripNanoPrefix addr =
        some (base32 52 v ++ encodeBase32Bits (blake2b40 pub).reverse 8) := by
  rw [decodeNanoAddress] at decoded
  split at decoded
  · exact nomatch decoded
  next a stripped =>
  split_ifs at decoded with length
  rw [not_not] at length
  cases first : decodeBase32Bits (a.take 52) 32 with
  | error text => simp [first, bind, Except.bind] at decoded
  | ok key =>
    cases second : decodeBase32Bits (a.drop 52) 5 with
    | error text => simp [first, second, bind, Except.bind] at decoded
    | ok csBytes =>
      simp only [first, second, bind, Except.bind] at decoded
      split_ifs at decoded with matching
      obtain rfl := Except.ok.inj decoded
      rw [not_not] at matching
      have front : (a.take 52).length = 52 := by rw [List.length_take, length]; rfl
      have back : (a.drop 52).length = 8 := by rw [List.length_drop, length]
      obtain ⟨v, bound, digits, rfl⟩ := decodeBase32Bits_ok first
      obtain ⟨w, small, check, rfl⟩ := decodeBase32Bits_ok second
      rw [front] at bound digits
      rw [back] at small check
      refine ⟨v, bound, rfl, ?_⟩
      have whole : ofBigEndian (bigEndian 5 w) = w := by
        rw [ofBigEndian_bigEndian]
        exact Nat.mod_eq_of_lt small
      rw [stripped, digits, ← matching, encodeBase32Bits, whole, check, List.take_append_drop]

end Address

end Obscura.Swapd
