import Obscura.Stark.Field

/-! # The number-theoretic transform

The in-place Cooley-Tukey transform over the powers of a root of unity, and its inverse.
-/

namespace Obscura.Stark

/-- The inner loop of `bitReverse`: clears the leading set bits of `j` from `bit` downwards. -/
def carryDown : Nat → Nat → Nat → Nat × Nat
  | 0, bit, j => (bit, j)
  | rounds + 1, bit, j =>
    if j &&& bit ≠ 0 then carryDown rounds (bit >>> 1) (j ^^^ bit) else (bit, j)

/-- The rounds `i, i + 1, …` of `bitReverse`. -/
def bitReverseFrom (n : Nat) : Nat → Nat → Nat → Array Felt → Array Felt
  | 0, _, _, a => a
  | rounds + 1, i, j, a =>
    let (bit, cleared) := carryDown 64 (n >>> 1) j
    let j := cleared ^^^ bit
    bitReverseFrom n rounds (i + 1) j (if i < j then a.swapIfInBounds i j else a)

/-- `bitReverse`: the entries in the order of the reversed bits of their indices. -/
def bitReverse (a : Array Felt) : Array Felt :=
  bitReverseFrom a.size (a.size - 1) 1 0 a

/-- One block of a stage: `half` butterflies from `start` on. -/
def butterflies (w : Felt) (half start : Nat) (a : Array Felt) : Array Felt :=
  ((List.range half).foldl (fun (loop : Array Felt × Felt) j =>
    let (a, wj) := loop
    let t := wj.mul (a.getD (start + j + half) .zero)
    let u := a.getD (start + j) .zero
    (((a.setIfInBounds (start + j) (u.add t)).setIfInBounds (start + j + half) (u.sub t)),
      wj.mul w)) (a, .one)).1

/-- Stage `s`: the blocks of `2 ^ s` elements. -/
def nttStage (inverse : Bool) (s : Nat) (a : Array Felt) : Option (Array Felt) :=
  (rootOfUnity s).map fun w =>
    let w := if inverse then w.inv else w
    (List.range (a.size / 2 ^ s)).foldl (fun a k => butterflies w (2 ^ s / 2) (k * 2 ^ s) a) a

/-- `ntt`; it panics when the length is no power of two. -/
def ntt (inverse : Bool) (a : Array Felt) : Option (Array Felt) :=
  if a.size &&& (a.size - 1) ≠ 0 then none
  else (List.range (log2 a.size)).foldlM (fun a s => nttStage inverse (s + 1) a) (bitReverse a)

/-- `NTT`. -/
def forwardNtt (coeffs : List Felt) : Option (List Felt) :=
  (ntt false coeffs.toArray).map Array.toList

/-- `INTT`. -/
def inverseNtt (evals : List Felt) : Option (List Felt) :=
  (ntt true evals.toArray).map fun a =>
    let nInv := (Felt.mk (UInt64.ofNat (a.size % P.toNat))).inv
    a.toList.map fun x => x.mul nInv

end Obscura.Stark
