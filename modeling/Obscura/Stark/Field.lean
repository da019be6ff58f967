import Mathlib.Data.UInt

/-! # The Goldilocks field and its quadratic extension

Field elements are machine words below `P = 2^64 − 2^32 + 1`; the operations reduce with the
carries and borrows of 64-bit arithmetic. The extension adjoins a square root of `7`.
-/

namespace Obscura.Stark

/-- The Goldilocks prime. -/
def P : UInt64 := 0xFFFFFFFF00000001

/-- What is left of `2^64` modulo the prime. -/
def epsilon : UInt64 := 0xFFFFFFFF

/-- `bits.Sub64` without a borrow in. -/
def sub64 (x y : UInt64) : UInt64 × UInt64 :=
  (x - y, if x < y then 1 else 0)

/-- `bits.Add64` without a carry in. -/
def add64 (x y : UInt64) : UInt64 × UInt64 :=
  (x + y, if x + y < x then 1 else 0)

/-- `bits.Mul64`: the high and the low word of the product. -/
def mul64 (x y : UInt64) : UInt64 × UInt64 :=
  (UInt64.ofNat (x.toNat * y.toNat / 2 ^ 64), x * y)

/-- `reduce128`: a product of two words modulo the prime. -/
def reduce128 (hi lo : UInt64) : UInt64 :=
  let hiHi := hi >>> 32
  let hiLo := hi &&& epsilon
  let (t0, borrow) := sub64 lo hiHi
  let t0 := t0 - epsilon * borrow
  let t1 := hiLo * epsilon
  let (t2, carry) := add64 t0 t1
  let t2 := t2 + epsilon * carry
  if P ≤ t2 then t2 - P else t2

/-- A field element as the word that holds it. Decoded data may hold any word. -/
structure Felt where
  word : UInt64
deriving DecidableEq

namespace Felt

/-- The neutral element of addition. -/
def zero : Felt := ⟨0⟩

/-- The neutral element of multiplication. -/
def one : Felt := ⟨1⟩

/-- The constant of a small number. -/
def ofNat (n : Nat) : Felt := ⟨UInt64.ofNat n⟩

/-- `Add`: the carry comes back as `epsilon`. -/
def add (a b : Felt) : Felt :=
  let (s, carry) := add64 a.word b.word
  let s := s + epsilon * carry
  ⟨if P ≤ s then s - P else s⟩

/-- `Sub`: the borrow is taken off as `epsilon`. -/
def sub (a b : Felt) : Felt :=
  let (d, borrow) := sub64 a.word b.word
  ⟨d - epsilon * borrow⟩

/-- `Mul`: the product in two words, reduced. -/
def mul (a b : Felt) : Felt :=
  let (hi, lo) := mul64 a.word b.word
  ⟨reduce128 hi lo⟩

/-- The loop of `Exp`; a 64-bit exponent is used up after 64 rounds. -/
def expLoop : Nat → Felt → Felt → Nat → Felt
  | 0, result, _, _ => result
  | rounds + 1, result, base, e =>
    if 0 < e then
      expLoop rounds (if e % 2 = 1 then result.mul base else result) (base.mul base) (e / 2)
    else result

/-- `Exp`: squaring and multiplying from the lowest bit. -/
def exp (a : Felt) (e : UInt64) : Felt := expLoop 64 one a e.toNat

/-- `Inv`: the power of `P - 2`; 0 is its own inverse. -/
def inv (a : Felt) : Felt :=
  if a = zero then zero else a.exp (P - 2)

end Felt

/-- `newFelt`. -/
def newFelt (x : UInt64) : Felt := ⟨if P ≤ x then x - P else x⟩

/-- `generator`, which is also the non-residue of the extension. -/
def generator : Felt := ⟨7⟩

/-- The powers of two that divide the order of the units. -/
def twoAdicity : Nat := 32

/-- The loop of `log2` on an `int`, which has at most 63 rounds. -/
def log2Loop : Nat → Nat → Nat → Nat
  | 0, k, _ => k
  | rounds + 1, k, n => if 2 ^ k < n then log2Loop rounds (k + 1) n else k

/-- `log2`, rounded down. -/
def log2 (n : Nat) : Nat := log2Loop 63 0 n

/-- `RootOfUnity`; it panics above the field's two-adicity. -/
def rootOfUnity (logN : Nat) : Option Felt :=
  if twoAdicity < logN then none
  else some (generator.exp ((P - 1) >>> UInt64.ofNat logN))

/-- An element `A + B·u` of the extension, where `u² = 7`. -/
structure Felt2 where
  A : Felt
  B : Felt
deriving DecidableEq

namespace Felt2

/-- `Felt2From`. -/
def ofFelt (x : Felt) : Felt2 := ⟨x, .zero⟩

/-- The neutral element of addition. -/
def zero : Felt2 := ⟨.zero, .zero⟩

/-- The neutral element of multiplication. -/
def one : Felt2 := ⟨.one, .zero⟩

/-- `Add`, part by part. -/
def add (x y : Felt2) : Felt2 := ⟨x.A.add y.A, x.B.add y.B⟩

/-- `Sub`, part by part. -/
def sub (x y : Felt2) : Felt2 := ⟨x.A.sub y.A, x.B.sub y.B⟩

/-- `Mul`: the square of the adjoined root is the generator. -/
def mul (x y : Felt2) : Felt2 :=
  let ac := x.A.mul y.A
  let bd := x.B.mul y.B
  let ad := x.A.mul y.B
  let bc := x.B.mul y.A
  ⟨ac.add (bd.mul generator), ad.add bc⟩

/-- `MulBase`: a multiple by an element of the base field. -/
def mulBase (x : Felt2) (s : Felt) : Felt2 := ⟨x.A.mul s, x.B.mul s⟩

/-- `Square`, with one product of the two parts. -/
def square (x : Felt2) : Felt2 :=
  let aa := x.A.mul x.A
  let bb := x.B.mul x.B
  let ab := x.A.mul x.B
  ⟨aa.add (bb.mul generator), ab.add ab⟩

/-- `Norm`: the product with the conjugate. -/
def norm (x : Felt2) : Felt :=
  let aa := x.A.mul x.A
  let bb := x.B.mul x.B
  aa.sub (bb.mul generator)

/-- `Conj`: the second part negated. -/
def conj (x : Felt2) : Felt2 := ⟨x.A, Felt.zero.sub x.B⟩

/-- `Inv`: the conjugate over the norm; 0 is its own inverse. -/
def inv (x : Felt2) : Felt2 :=
  if x = zero then zero
  else
    let ninv := x.norm.inv
    ⟨x.conj.A.mul ninv, x.conj.B.mul ninv⟩

/-- The loop of `Exp`, as `Felt.expLoop`. -/
def expLoop : Nat → Felt2 → Felt2 → Nat → Felt2
  | 0, result, _, _ => result
  | rounds + 1, result, base, e =>
    if 0 < e then
      expLoop rounds (if e % 2 = 1 then result.mul base else result) base.square (e / 2)
    else result

/-- `Exp`: squaring and multiplying from the lowest bit. -/
def exp (x : Felt2) (e : UInt64) : Felt2 := expLoop 64 one x e.toNat

end Felt2

/-! ## Polynomials -/

/-- `EvalPoly`: Horner's rule, the lowest coefficient first. -/
def evalPoly (coeffs : List Felt) (x : Felt) : Felt :=
  coeffs.foldr (fun coeff acc => (acc.mul x).add coeff) .zero

/-- `evalBaseAt2`. -/
def evalBaseAt2 (p : List Felt) (x : Felt2) : Felt2 :=
  p.foldr (fun coeff acc => (acc.mul x).add (.ofFelt coeff)) .zero

end Obscura.Stark
