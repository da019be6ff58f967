import Obscura.Swapd.NanoAddress

/-! # The two Nano address codecs

The wallet's cryptography package carries its own copy of the address codec. The copies accept the
same addresses with the same keys. An accepted address is the one written for its key, up to the
prefix, exactly when its first digit leaves the four pad bits clear: the parser drops those bits
without looking at them.
-/

namespace Obscura.Nanocrypto

open Wire

/-! ## The copy -/

/-- The 32 characters of an address. -/
def alphabet : Bytes := ascii "13456789abcdefghijkmnopqrstuwxyz"

/-- The digit of a character. -/
def decodeRune (r : UInt8) : Option Nat := alphabet.idxOf? r

/-- The loop of `encodeBase32Bits`, which fills its characters from the last to the first. -/
def encodeLoop : (chars : Nat) → Nat → Bytes
  | 0, _ => []
  | chars + 1, v => encodeLoop chars (v >>> 5) ++ [alphabet.getD (v % 32) 0]

/-- A number of characters for the bytes. -/
def encodeBase32Bits (data : Bytes) (chars : Nat) : Bytes := encodeLoop chars (ofBigEndian data)

/-- The bytes of a string of digits; the bits beyond them are dropped. -/
def decodeBase32Bits (s : Bytes) (byteLen : Nat) : Except String Bytes :=
  match s.foldlM (fun v r => (decodeRune r).map fun d => v <<< 5 ||| d) 0 with
  | none => .error ("nanocrypto: invalid base32 char " ++ Swapd.notDigit decodeRune s)
  | some v => .ok (bigEndian byteLen v)

section Address

variable (blake2b40 : Bytes → Bytes)

/-- The address of a public key of 32 bytes. -/
def encodeAddress (pub : Bytes) : Except String Bytes :=
  if pub.length ≠ 32 then .error "nanocrypto: nano pubkey must be 32 bytes"
  else .ok (ascii "nano_" ++
    (encodeBase32Bits pub 52 ++ encodeBase32Bits (blake2b40 pub).reverse 8))

/-- The public key of an address with either prefix, if its checksum holds. -/
def decodeAddress (addr : Bytes) : Except String Bytes :=
  match (if (ascii "nano_").isPrefixOf addr then some (addr.drop 5)
    else if (ascii "xrb_").isPrefixOf addr then some (addr.drop 4) else none) with
  | none => .error "nanocrypto: address must start with nano_ or xrb_"
  | some a =>
    if a.length ≠ 60 then
      .error "nanocrypto: bad nano address length"
    else do
      let pub ← decodeBase32Bits (a.take 52) 32
      let csBytes ← decodeBase32Bits (a.drop 52) 5
      if csBytes ≠ (blake2b40 pub).reverse then throw "nanocrypto: nano address checksum mismatch"
      else pure pub

/-! ## Agreement -/

theorem encodeLoop_eq (chars v : Nat) : encodeLoop chars v = Swapd.base32 chars v := by
  induction chars generalizing v with
  | zero => rfl
  | succ chars ih =>
    rw [encodeLoop, Swapd.base32, ih]
    rfl

theorem decodeBase32Bits_agrees (s : Bytes) (byteLen : Nat) :
    (decodeBase32Bits s byteLen).toOption = (Swapd.decodeBase32Bits s byteLen).toOption := by
  rw [decodeBase32Bits, Swapd.decodeBase32Bits]
  change (match s.foldlM (fun v r => (Swapd.nanoDecodeRune r).map fun d => v <<< 5 ||| d) 0 with
    | none => Except.error _
    | some v => .ok (bigEndian byteLen v)).toOption = _
  cases s.foldlM (fun v r => (Swapd.nanoDecodeRune r).map fun d => v <<< 5 ||| d) 0 <;> rfl

theorem encodeAddress_agrees (pub : Bytes) :
    (encodeAddress blake2b40 pub).toOption =
      (Swapd.encodeNanoAddress blake2b40 pub).toOption := by
  rw [encodeAddress, Swapd.encodeNanoAddress, Swapd.nanoAddress, encodeBase32Bits,
    encodeBase32Bits, encodeLoop_eq, encodeLoop_eq]
  split_ifs <;> rfl

theorem toOption_bind {ε α β : Type} (x : Except ε α) (f : α → Except ε β) :
    (x >>= f).toOption = x.toOption.bind fun a => (f a).toOption := by
  cases x <;> rfl

theorem toOption_eq_some {ε α : Type} {x : Except ε α} {a : α} :
    x.toOption = some a ↔ x = .ok a := by
  cases x <;> simp [Except.toOption]

theorem decodeAddress_agrees (addr : Bytes) :
    (decodeAddress blake2b40 addr).toOption =
      (Swapd.decodeNanoAddress blake2b40 addr).toOption := by
  have strip : (if (ascii "nano_").isPrefixOf addr then some (addr.drop 5)
      else if (ascii "xrb_").isPrefixOf addr then some (addr.drop 4) else none) =
      Swapd.stripNanoPrefix addr := rfl
  rw [decodeAddress, Swapd.decodeNanoAddress, strip]
  cases Swapd.stripNanoPrefix addr with
  | none => rfl
  | some a =>
    dsimp only
    split_ifs with length
    · rfl
    · rw [toOption_bind, toOption_bind, decodeBase32Bits_agrees]
      refine congrArg (Option.bind _) (funext fun pub => ?_)
      rw [toOption_bind, toOption_bind, decodeBase32Bits_agrees]
      refine congrArg (Option.bind _) (funext fun csBytes => ?_)
      split_ifs <;> rfl

/-! ## Canonical addresses -/

/-- The address is the one written for the key, up to the prefix. -/
def Canonical (addr pub : Bytes) : Prop :=
  Swapd.stripNanoPrefix addr = Swapd.stripNanoPrefix (Swapd.nanoAddress blake2b40 pub)

/-- The first digit of the account leaves the pad bits clear. -/
def PadClear (addr : Bytes) : Prop :=
  ∃ first rest, Swapd.stripNanoPrefix addr = some (first :: rest) ∧ first ∈ ascii "13"

theorem lead_mem_iff {v : Nat} (bound : v < 32 ^ 52) :
    Swapd.nanoAlphabet.getD (v / 32 ^ 51 % 32) 0 ∈ ascii "13" ↔ v < 256 ^ 32 := by
  have small : v / 32 ^ 51 < 32 := Nat.div_lt_of_lt_mul bound
  have lead : v < 256 ^ 32 ↔ v / 32 ^ 51 < 2 := by
    rw [Nat.div_lt_iff_lt_mul (by decide)]
    rfl
  rw [lead, Nat.mod_eq_of_lt small]
  generalize v / 32 ^ 51 = d at small
  revert d
  decide

variable {blake2b40}

/-- An accepted address is canonical exactly when its pad bits are clear. -/
theorem canonical_iff {addr pub : Bytes}
    (decoded : Swapd.decodeNanoAddress blake2b40 addr = .ok pub) :
    Canonical blake2b40 addr pub ↔ PadClear addr := by
  obtain ⟨v, bound, rfl, stripped⟩ := Swapd.decodeNanoAddress_ok decoded
  have clear : PadClear addr ↔ v < 256 ^ 32 := by
    rw [PadClear, stripped, Swapd.base32_succ_left, ← lead_mem_iff bound]
    simp
  rw [clear, Canonical, stripped, Swapd.nanoAddress, Swapd.stripNanoPrefix_nano, Option.some_inj,
    List.append_left_inj, Swapd.encodeBase32Bits, ofBigEndian_bigEndian]
  constructor
  · intro same
    have read := Swapd.decode_base32 52 v
    rw [same, Swapd.decode_base32, Nat.mod_eq_of_lt bound] at read
    have value := Option.some.inj read
    have less : v % 256 ^ 32 < 256 ^ 32 := Nat.mod_lt v (by decide)
    rw [Nat.mod_eq_of_lt (less.trans_le (by decide))] at value
    exact value ▸ less
  · intro small
    rw [Nat.mod_eq_of_lt small]

/-- Both codecs read back what they write and agree on every input, and an accepted address is the
one written for its key exactly when the first digit leaves the pad bits clear. -/
theorem codec_exact_iff (checksum : ∀ pub, (blake2b40 pub).length = 5) :
    (∀ pub : Bytes, pub.length = 32 →
      ∃ addr, Swapd.encodeNanoAddress blake2b40 pub = .ok addr ∧
        encodeAddress blake2b40 pub = .ok addr ∧
        Swapd.decodeNanoAddress blake2b40 addr = .ok pub ∧
        decodeAddress blake2b40 addr = .ok pub) ∧
    (∀ pub : Bytes, (encodeAddress blake2b40 pub).toOption =
      (Swapd.encodeNanoAddress blake2b40 pub).toOption) ∧
    (∀ addr : Bytes, (decodeAddress blake2b40 addr).toOption =
      (Swapd.decodeNanoAddress blake2b40 addr).toOption) ∧
    ∀ addr pub : Bytes, Swapd.decodeNanoAddress blake2b40 addr = .ok pub ∨
        decodeAddress blake2b40 addr = .ok pub →
      (Canonical blake2b40 addr pub ↔ PadClear addr) := by
  refine ⟨fun pub length => ?_, encodeAddress_agrees blake2b40, decodeAddress_agrees blake2b40,
    fun addr pub decoded => canonical_iff (decoded.elim id fun copied => ?_)⟩
  · have read := Swapd.decode_nanoAddress blake2b40 length (checksum pub)
    have written : Swapd.encodeNanoAddress blake2b40 pub =
        .ok (Swapd.nanoAddress blake2b40 pub) := if_neg (not_not.mpr length)
    have written' : encodeAddress blake2b40 pub = .ok (Swapd.nanoAddress blake2b40 pub) := by
      rw [← toOption_eq_some, encodeAddress_agrees, written]
      rfl
    refine ⟨_, written, written', read, ?_⟩
    rw [← toOption_eq_some, decodeAddress_agrees]
    exact toOption_eq_some.mpr read
  · rw [← toOption_eq_some, ← decodeAddress_agrees]
    exact toOption_eq_some.mpr copied

/-- The checksum of the key of 32 zero bytes. -/
def zeroKeyChecksum : Bytes := [0xd6, 0x52, 0xa3, 0x1a, 0x7c]

theorem codec_exact_zeroKey : (zeroKeyChecksum.length = 5) ∧
    (decodeAddress (fun _ => zeroKeyChecksum)
      (ascii "xrb_1111111111111111111111111111111111111111111111111111hifc8npp")).toOption =
        (Swapd.decodeNanoAddress (fun _ => zeroKeyChecksum)
      (ascii "xrb_1111111111111111111111111111111111111111111111111111hifc8npp")).toOption :=
  ⟨rfl, (codec_exact_iff fun _ => rfl).2.2.1 _⟩

/-- An address whose first digit is `4` is accepted for the key of 32 zero bytes, whose own address
starts with a `1`. -/
theorem not_canonical_zeroKey :
    Swapd.decodeNanoAddress (fun _ => zeroKeyChecksum)
        (ascii "nano_4111111111111111111111111111111111111111111111111111hifc8npp") =
      .ok (List.replicate 32 0) ∧
    decodeAddress (fun _ => zeroKeyChecksum)
        (ascii "nano_4111111111111111111111111111111111111111111111111111hifc8npp") =
      .ok (List.replicate 32 0) ∧
    Swapd.nanoAddress (fun _ => zeroKeyChecksum) (List.replicate 32 0) =
      ascii "nano_1111111111111111111111111111111111111111111111111111hifc8npp" ∧
    ¬ Canonical (fun _ => zeroKeyChecksum)
        (ascii "nano_4111111111111111111111111111111111111111111111111111hifc8npp")
        (List.replicate 32 0) := by
  refine ⟨by rfl, by rfl, by rfl, ?_⟩
  rw [Canonical]
  decide

end Address

end Obscura.Nanocrypto
