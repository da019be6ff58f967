import Obscura.Lib.Wire

/-! # Network addresses

The host of a connection's remote address and the group the host belongs to: the
first two bytes of an IPv4 address, the first four of an IPv6 address, and the
host itself for a name. Addresses are split and parsed as the standard library
does it, with every error an absent result.
-/

namespace Obscura.P2p

open Wire

/-- The separator of host and port. -/
def colon : UInt8 := 58

/-- The separator of the fields of an address. -/
def dot : UInt8 := 46

/-- What opens a bracketed host. -/
def openBracket : UInt8 := 91

/-- What closes a bracketed host. -/
def closeBracket : UInt8 := 93

/-- What comes before a zone. -/
def percent : UInt8 := 37

/-- The position of the last occurrence of a byte. -/
def lastIndexByte (text : Bytes) (byte : UInt8) : Option Nat :=
  (text.reverse.idxOf? byte).map fun fromEnd => text.length - 1 - fromEnd

/-- The host of a `host:port` address, where an IPv6 host stands in brackets. -/
def splitHostPort (hostport : Bytes) : Option Bytes := do
  let last ← lastIndexByte hostport colon
  if hostport.head? = some openBracket then
    let close ← hostport.idxOf? closeBracket
    -- The first closing bracket has to stand right before the last colon.
    guard (close + 1 = last)
    guard (openBracket ∉ hostport.drop 1)
    guard (closeBracket ∉ hostport.drop (close + 1))
    pure ((hostport.take close).drop 1)
  else
    let host := hostport.take last
    guard (colon ∉ host)
    guard (openBracket ∉ hostport)
    guard (closeBracket ∉ hostport)
    pure host

/-- The host of an address, or all of it where it has no port. -/
def hostOf (addr : Bytes) : Bytes :=
  (splitHostPort addr).getD addr

/-! ## IP addresses -/

/-- The value of a decimal digit. -/
def decimalDigit (byte : UInt8) : Option Nat :=
  if 48 ≤ byte ∧ byte ≤ 57 then some (byte.toNat - 48) else none

/-- The value of a hexadecimal digit of either case. -/
def hexDigit (byte : UInt8) : Option Nat :=
  if 48 ≤ byte ∧ byte ≤ 57 then
    some (byte.toNat - 48)
  else if 97 ≤ byte ∧ byte ≤ 102 then
    some (byte.toNat - 87)
  else if 65 ≤ byte ∧ byte ≤ 70 then
    some (byte.toNat - 55)
  else
    none

/-- One decimal field of an IPv4 address, without leading zeros. -/
def parseIPv4Field (field : Bytes) : Option UInt8 := do
  let digits ← field.mapM decimalDigit
  guard (digits ≠ [])
  guard (digits.length = 1 ∨ digits.head? ≠ some 0)
  let value := digits.foldl (fun value digit => value * 10 + digit) 0
  guard (value ≤ 255)
  pure (UInt8.ofNat value)

/-- Four fields of digits between dots. -/
def parseIPv4Fields (text : Bytes) : Option Bytes := do
  let fields := text.splitOn dot
  guard (fields.length = 4)
  fields.mapM parseIPv4Field

/-- What the loop over the groups of an IPv6 address has parsed: the bytes so far,
how many of them stand before the ellipsis, and the rest of the text. -/
structure IPv6Parse where
  bytes : Bytes
  ellipsis : Option Nat
  rest : Bytes
deriving DecidableEq, Repr

/-- The groups of an IPv6 address; `fuel` counts the groups that still fit. -/
def parseIPv6Groups : (fuel : Nat) → IPv6Parse → Option IPv6Parse
  | 0, state => some state
  | fuel + 1, state => do
    let digits := state.rest.takeWhile fun byte => (hexDigit byte).isSome
    let after := state.rest.drop digits.length
    guard (0 < digits.length ∧ digits.length ≤ 4)
    if after.head? = some dot then
      -- An IPv4 address may stand in the place of the last two groups.
      guard (state.ellipsis.isSome ∨ state.bytes.length = 12)
      guard (state.bytes.length + 4 ≤ 16)
      let tail ← parseIPv4Fields state.rest
      pure { state with bytes := state.bytes ++ tail, rest := [] }
    else
      let value := digits.foldl (fun value byte => value * 16 + (hexDigit byte).getD 0) 0
      let bytes := state.bytes ++ bigEndian 2 value
      match after with
      | [] => pure { state with bytes, rest := [] }
      | separator :: later =>
        guard (separator = colon ∧ later ≠ [])
        if later.head? = some colon then
          guard state.ellipsis.isNone
          let next : IPv6Parse := ⟨bytes, some bytes.length, later.drop 1⟩
          if next.rest = [] then pure next else parseIPv6Groups fuel next
        else
          parseIPv6Groups fuel { state with bytes, rest := later }

/-- An IPv6 address without a zone. -/
def parseIPv6 (text : Bytes) : Option Bytes := do
  guard (percent ∉ text)
  let leading := [colon, colon].isPrefixOf text
  if leading ∧ text.length = 2 then
    pure (List.replicate 16 0)
  else
    let start : IPv6Parse := if leading then ⟨[], some 0, text.drop 2⟩ else ⟨[], none, text⟩
    let final ← parseIPv6Groups 8 start
    guard (final.rest = [])
    match final.ellipsis with
    | none =>
      guard (final.bytes.length = 16)
      pure final.bytes
    | some place =>
      -- An ellipsis stands for at least one group of zeros.
      guard (final.bytes.length < 16)
      pure (final.bytes.take place ++ List.replicate (16 - final.bytes.length) 0 ++
        final.bytes.drop place)

/-- The twelve bytes that stand before an IPv4 address in the IPv6 form. -/
def v4InV6Prefix : Bytes := List.replicate 10 0 ++ [0xff, 0xff]

/-- The sixteen bytes of an IP address. The first dot or colon decides its kind. -/
def parseIP (text : Bytes) : Option Bytes :=
  match text.find? fun byte => byte = dot ∨ byte = colon ∨ byte = percent with
  | some byte =>
    if byte = dot then
      (parseIPv4Fields text).map (v4InV6Prefix ++ ·)
    else if byte = colon then
      parseIPv6 text
    else
      none
  | none => none

/-- The four bytes of an address that is an IPv4 address. -/
def to4 (ip : Bytes) : Option Bytes :=
  if v4InV6Prefix.isPrefixOf ip then some (ip.drop 12) else none

/-- `ipGroup`: the first half of an IPv4 address, the first quarter of an IPv6 one, or the host -/
def ipGroup (addr : Bytes) : Bytes :=
  let host := hostOf addr
  match parseIP host with
  | none => host
  | some ip =>
    match to4 ip with
    | some v4 => ascii "4:" ++ v4.take 2
    | none => ascii "6:" ++ ip.take 4

example : ipGroup (ascii "203.0.113.7:18080") = ascii "4:" ++ [203, 0] := by decide

example : ipGroup (ascii "[2001:db8::1]:9") = ascii "6:" ++ [0x20, 0x01, 0x0d, 0xb8] := by
  decide

example : ipGroup (ascii "[::ffff:1.2.3.4]:9") = ascii "4:" ++ [1, 2] := by decide

end Obscura.P2p
