import Obscura.Lib.Wire
import Obscura.Stark.Field

/-! # The Fiat-Shamir transcript and the Merkle commitments

Prover and verifier absorb the same values and squeeze the same challenges. The hash function
is a parameter of everything here.
-/

namespace Obscura.Stark

open Wire

/-- The big-endian word at an offset of a hash. -/
def wordAt (hash : Bytes) (offset : Nat) : UInt64 :=
  UInt64.ofNat (ofBigEndian ((hash.drop offset).take 8))

/-- The bytes of a word, highest first. -/
def wordBytes (x : UInt64) : Bytes := bigEndian 8 x.toNat

/-- The zero bits in front of the first one. -/
def leadingZeroBits : Bytes → Nat
  | [] => 0
  | b :: rest =>
    if b = 0 then 8 + leadingZeroBits rest
    else ((List.range 8).takeWhile fun i => !b.toNat.testBit (7 - i)).length

section Oracle

variable (sum256 : Bytes → Bytes)

/-! ## Merkle commitments -/

/-- The hash of a single value. -/
def leafHash (f : Felt) : Bytes := sum256 (wordBytes f.word)

/-- The hash of two children. -/
def nodeHash (l r : Bytes) : Bytes := sum256 (l ++ r)

/-- The hash of a row of values. -/
def leafHashRow (vals : List Felt) : Bytes := sum256 (vals.flatMap fun f => wordBytes f.word)

/-- The hash a path leads to from the leaf hash `h` at index `idx`. -/
def climb : Bytes → Nat → List Bytes → Bytes
  | h, _, [] => h
  | h, idx, sib :: path =>
    climb (if idx % 2 = 0 then nodeHash sum256 h sib else nodeHash sum256 sib h) (idx / 2) path

/-- `validPathLen`, whose loop is that of `log2`. -/
def validPathLen (n p : Nat) : Bool := p == log2 n

/-- The check of `VerifyMerkle` and `VerifyRowMerkle` on the hash of the leaf. -/
def verifyPath (root : Bytes) (n i : Nat) (h : Bytes) (path : List Bytes) : Bool :=
  if n ≤ i ∨ validPathLen n path.length = false then false
  else climb sum256 h i path == root

/-- `VerifyRowMerkle`: the path leads from a row to the root. -/
def verifyRowMerkle (root : Bytes) (n i : Nat) (row : List Felt) (path : List Bytes) : Bool :=
  verifyPath sum256 root n i (leafHashRow sum256 row) path

/-- `VerifyMerkle`: the path leads from a value to the root. -/
def verifyMerkle (root : Bytes) (n i : Nat) (leaf : Felt) (path : List Bytes) : Bool :=
  verifyPath sum256 root n i (leafHash sum256 leaf) path

/-! ## The transcript -/

/-- The transcript's state. -/
abbrev Transcript := Bytes

/-- `NewTranscript`: a transcript starts from the network and a label. -/
def newTranscript (netIDHex label : Bytes) : Transcript :=
  sum256 (ascii "OBX/stark/transcript/" ++ netIDHex ++ ascii "/" ++ label)

namespace Transcript

/-- `AbsorbRoot`: a root joins the state. -/
def absorbRoot (tr : Transcript) (root : Bytes) : Transcript := sum256 (tr ++ root)

/-- `AbsorbFelt`: the bytes of an element join the state. -/
def absorbFelt (tr : Transcript) (f : Felt) : Transcript := sum256 (tr ++ wordBytes f.word)

/-- `AbsorbFelt2`: both parts join the state. -/
def absorbFelt2 (tr : Transcript) (f : Felt2) : Transcript :=
  absorbFelt sum256 (absorbFelt sum256 tr f.A) f.B

/-- The squeezed bytes and the advanced transcript. -/
def challengeBytes (tr : Transcript) : Bytes × Transcript :=
  let out := sum256 (tr ++ wordBytes 0x9E3779B97F4A7C15)
  (out, sum256 out)

/-- `ChallengeFelt`: sixteen squeezed bytes, reduced. -/
def challengeFelt (tr : Transcript) : Felt × Transcript :=
  let (b, tr) := challengeBytes sum256 tr
  (⟨reduce128 (wordAt b 8) (wordAt b 0)⟩, tr)

/-- `ChallengeFelt2`: thirty-two squeezed bytes, reduced by halves. -/
def challengeFelt2 (tr : Transcript) : Felt2 × Transcript :=
  let (b, tr) := challengeBytes sum256 tr
  (⟨⟨reduce128 (wordAt b 8) (wordAt b 0)⟩, ⟨reduce128 (wordAt b 24) (wordAt b 16)⟩⟩, tr)

/-- `ChallengeIndex`, for a power of two `n`. -/
def challengeIndex (tr : Transcript) (n : Nat) : Nat × Transcript :=
  let (b, tr) := challengeBytes sum256 tr
  ((wordAt b 0).toNat &&& (n - 1), tr)

/-- The hash of a nonce under the state. -/
def powHash (tr : Transcript) (nonce : UInt64) : Bytes :=
  sum256 (tr ++ ascii "grnd" ++ List.replicate 4 0 ++ wordBytes nonce)

/-- `VerifyGrind`: the transcript afterwards, when the nonce meets the difficulty. -/
def verifyGrind (tr : Transcript) (bits : Nat) (nonce : UInt64) : Option Transcript :=
  if leadingZeroBits (powHash sum256 tr nonce) < bits then none
  else some (absorbFelt sum256 tr ⟨nonce⟩)

/-- `count` challenges in a row. -/
def challengeFelts : Nat → Transcript → List Felt × Transcript
  | 0, tr => ([], tr)
  | count + 1, tr =>
    let (x, tr) := challengeFelt sum256 tr
    let (xs, tr) := challengeFelts count tr
    (x :: xs, tr)

/-- `count` pairs of extension challenges in a row. -/
def challengePairs : Nat → Transcript → List (Felt2 × Felt2) × Transcript
  | 0, tr => ([], tr)
  | count + 1, tr =>
    let (x, tr) := challengeFelt2 sum256 tr
    let (y, tr) := challengeFelt2 sum256 tr
    let (rest, tr) := challengePairs count tr
    ((x, y) :: rest, tr)

/-- `drawOutOfDomain2`, which draws until a point lies outside the coset. The source's loop has
no bound; `none` stands for a run that has not ended after `tries` draws. -/
def drawOutOfDomain2 (n0 : Nat) (coset : Felt) :
    (tries : Nat) → Transcript → Option (Felt2 × Transcript)
  | 0, _ => none
  | tries + 1, tr =>
    let (z, tr) := challengeFelt2 sum256 tr
    if z = .zero ∨ z.exp (UInt64.ofNat n0) = .ofFelt (coset.exp (UInt64.ofNat n0)) then
      drawOutOfDomain2 n0 coset tries tr
    else some (z, tr)

end Transcript

end Oracle

end Obscura.Stark
