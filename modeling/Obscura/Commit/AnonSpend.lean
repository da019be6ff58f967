import Mathlib.Algebra.Field.ZMod
import Mathlib.Data.ZMod.Basic
import Obscura.Lib.OneOfMany

/-! # The joint anonymous-spend proof

The prover and the verifier of package `commit` for a spend of one hidden member of
a ring: knowledge of the member's key, the key image of that key, and the member's
value against the pseudo-commitment, all at one hidden index. Points form a
commutative group and scalars are residues of the prime order of the base point; a
scalar acts on a point by its canonical representative, also on a point outside the
prime-order subgroup. Encodings are identified with the points and scalars they
decode to, and the Fiat-Shamir hash is a parameter.
-/

namespace Obscura.Commit

/-- The generators of package `commit`. -/
structure Generators (M : Type) where
  G : M
  hPoint : M
  uGen : M

/-- The commitments of a proof, from which the challenge is derived. -/
structure FirstMessage (M : Type) where
  cl : List M
  ca : List M
  cb : List M
  cdO : List M
  cdt : List M
  cdV : List M
deriving DecidableEq

/-- The answers of a proof to its challenge. -/
structure Response (L : Nat) where
  f : List (ZMod L)
  za : List (ZMod L)
  zb : List (ZMod L)
  zdO : ZMod L
  zdV : ZMod L
deriving DecidableEq

/-- The messages, the responses and the claimed logarithm of the ring's size. -/
structure AnonSpendProof (L : Nat) (M : Type) extends FirstMessage M, Response L where
  m : Nat

/-- The random scalars of a prover. -/
structure Coins (L : Nat) where
  aj : Nat → ZMod L
  rl : Nat → ZMod L
  ra : Nat → ZMod L
  rb : Nat → ZMod L
  rhoO : Nat → ZMod L
  rhoV : Nat → ZMod L

/-- The challenge of a first message for two rings and a tag, in a fixed context. -/
abbrev Challenge (L : Nat) (M : Type) : Type :=
  (ownRing valRing : List M) → (T : M) → FirstMessage M → ZMod L

/-- The number of trailing zero bits of a positive number. -/
def trailingZeros (n : Nat) : Nat :=
  ((List.range n).find? n.testBit).getD n

theorem trailingZeros_two_pow (m : Nat) : trailingZeros (2 ^ m) = m := by
  have found : (List.range (2 ^ m)).find? (2 ^ m).testBit = some m := by
    rw [List.find?_range_eq_some]
    refine ⟨Nat.testBit_two_pow_self, List.mem_range.mpr Nat.lt_two_pow_self, ?_⟩
    intro j below
    rw [Nat.testBit_two_pow_of_ne below.ne']
    rfl
  rw [trailingZeros, found, Option.getD_some]

section Curve

variable {L : Nat} {M : Type} [AddCommGroup M] (gens : Generators M)

/-- A scalar acts through its representative. -/
def scalarMult (k : ZMod L) (P : M) : M := k.val • P

/-- Clears the parts of small order. -/
def multByCofactor (P : M) : M := 8 • P

/-- A commitment under the pool's value generator. -/
def commScalar (v r : ZMod L) : M := scalarMult v gens.hPoint + scalarMult r gens.G

/-- The cofactor-cleared tag, absent for a tag of low order. -/
def canonicalTag [DecidableEq M] (T : M) : Option M :=
  if multByCofactor T = 0 then none else some (multByCofactor T)

/-! ## The prover -/

/-- The product of a polynomial, from its low coefficient up, and `c0 + c1 * x`. -/
def polyMulLinear (p : List (ZMod L)) (c0 c1 : ZMod L) : List (ZMod L) :=
  List.zipWith (· + ·) (p.map (· * c0) ++ [0]) (0 :: p.map (· * c1))

/-- The coefficients of the polynomial of one index. -/
def indexPoly (lj aj : Nat → ZMod L) (m i : Nat) : List (ZMod L) :=
  (List.range m).foldl (fun poly j =>
    if i.testBit j then polyMulLinear poly (aj j) (lj j)
    else polyMulLinear poly (-aj j) (1 - lj j)) [1]

/-- The sums over the ring of the members weighted by the coefficients of their polynomials. -/
def polySumsOverRing (ring : List M) (lj aj : Nat → ZMod L) (m n : Nat) : List M :=
  (List.range m).map fun k => (List.range n).foldl (fun sum i =>
    sum + scalarMult ((indexPoly lj aj m i).getD k 0) (ring.getD i 0)) 0

/-- The last response: `secret * x^m` less the randomizers times the lower powers. -/
def lastResponse (secret : ZMod L) (rho : Nat → ZMod L) (xc : ZMod L) (m : Nat) : ZMod L :=
  (List.range m).foldl (fun z k => z - rho k * xc ^ k) (secret * xc ^ m)

/-- The commitments of the holder of `x` and `d` at index `l`. -/
def firstMessage (coins : Coins L) (ownRing valRing : List M) (l m n : Nat) : FirstMessage M :=
  let lj (j : Nat) : ZMod L := if l.testBit j then 1 else 0
  let sumsO := polySumsOverRing ownRing lj coins.aj m n
  let sumsV := polySumsOverRing valRing lj coins.aj m n
  { cl := (List.range m).map fun j => commScalar gens (lj j) (coins.rl j)
    ca := (List.range m).map fun j => commScalar gens (coins.aj j) (coins.ra j)
    cb := (List.range m).map fun j => commScalar gens (lj j * coins.aj j) (coins.rb j)
    cdO := (List.range m).map fun k => sumsO.getD k 0 + scalarMult (coins.rhoO k) gens.G
    cdt := (List.range m).map fun k => scalarMult (coins.rhoO k) gens.uGen
    cdV := (List.range m).map fun k => sumsV.getD k 0 + scalarMult (coins.rhoV k) gens.G }

/-- The answers of the prover to a challenge. -/
def respond (coins : Coins L) (l m : Nat) (x d xc : ZMod L) : Response L :=
  let lj (j : Nat) : ZMod L := if l.testBit j then 1 else 0
  let f (j : Nat) : ZMod L := lj j * xc + coins.aj j
  { f := (List.range m).map f
    za := (List.range m).map fun j => coins.rl j * xc + coins.ra j
    zb := (List.range m).map fun j => coins.rl j * (xc - f j) + coins.rb j
    zdO := lastResponse x coins.rhoO xc m
    zdV := lastResponse d coins.rhoV xc m }

/-- `ProveAnonSpend`: `x` opens the member `l` of the ownership ring, `d` that of the
value ring. The result is the proof and the tag. -/
def proveAnonSpend (anonChallenge : Challenge L M) (coins : Coins L) (ownRing valRing : List M)
    (l : Nat) (x d : ZMod L) : Except String (AnonSpendProof L M × M) :=
  let n := ownRing.length
  if n = 0 ∨ n &&& (n - 1) ≠ 0 then
    .error "commit: ring size must be a power of two"
  else if valRing.length ≠ n then
    .error "commit: ring length mismatch"
  else if l ≥ n then
    .error "commit: index out of range"
  else
    let m := trailingZeros n
    let T := scalarMult x gens.uGen
    let first := firstMessage gens coins ownRing valRing l m n
    let xc := anonChallenge ownRing valRing T first
    .ok ({ toFirstMessage := first, toResponse := respond coins l m x d xc, m := m }, T)

/-! ## The verifier -/

/-- The selector of an index at the challenge. -/
def selectorAt (f : List (ZMod L)) (xc : ZMod L) (m i : Nat) : ZMod L :=
  (List.range m).foldl (fun p j =>
    if i.testBit j then p * f.getD j 0 else p * (xc - f.getD j 0)) 1

/-- The left side of the two equations over a ring. -/
def accumulate (ring cd : List M) (f : List (ZMod L)) (xc : ZMod L) (m n : Nat) : M :=
  let acc := (List.range n).foldl (fun acc i =>
    acc + scalarMult (selectorAt f xc m i) (ring.getD i 0)) 0
  (List.range m).foldl (fun acc k => acc - scalarMult (xc ^ k) (cd.getD k 0)) acc

/-- The left side of the tag equation. -/
def accumulateTag (Tc : M) (cdt : List M) (xc : ZMod L) (m : Nat) : M :=
  (List.range m).foldl (fun acc k =>
    acc - multByCofactor (scalarMult (xc ^ k) (cdt.getD k 0))) (scalarMult (xc ^ m) Tc)

variable [DecidableEq M]

/-- The two equations of one digit. -/
def digitOK (pf : AnonSpendProof L M) (xc : ZMod L) (j : Nat) : Bool :=
  scalarMult xc (pf.cl.getD j 0) + pf.ca.getD j 0 =
      commScalar gens (pf.f.getD j 0) (pf.za.getD j 0) ∧
    scalarMult (xc - pf.f.getD j 0) (pf.cl.getD j 0) + pf.cb.getD j 0 =
      commScalar gens 0 (pf.zb.getD j 0)

/-- The lengths of the lists of a proof. -/
def AnonSpendProof.lengths (pf : AnonSpendProof L M) : List Nat :=
  [pf.cl.length, pf.ca.length, pf.cb.length, pf.cdO.length, pf.cdt.length, pf.cdV.length,
    pf.f.length, pf.za.length, pf.zb.length]

/-- `VerifyAnonSpend` under a given challenge. -/
def verifyTranscript (xc : ZMod L) (ownRing valRing : List M) (T : M) (pf : AnonSpendProof L M) :
    Bool :=
  let n := ownRing.length
  if n = 0 ∨ n &&& (n - 1) ≠ 0 ∨ valRing.length ≠ n then
    false
  else
    match canonicalTag T with
    | none => false
    | some Tc =>
      let m := trailingZeros n
      if pf.m ≠ m then
        false
      else if ¬ pf.lengths.all (· = m) then
        false
      else if ¬ (List.range m).all (digitOK gens pf xc) then
        false
      else if accumulate ownRing pf.cdO pf.f xc m n ≠ scalarMult pf.zdO gens.G then
        false
      else if accumulateTag Tc pf.cdt xc m ≠ multByCofactor (scalarMult pf.zdO gens.uGen) then
        false
      else
        accumulate valRing pf.cdV pf.f xc m n = scalarMult pf.zdV gens.G

/-- The verifier with the challenge that the hash gives. -/
def verifyAnonSpend (anonChallenge : Challenge L M) (ownRing valRing : List M) (T : M)
    (pf : AnonSpendProof L M) : Bool :=
  verifyTranscript gens (anonChallenge ownRing valRing T pf.toFirstMessage) ownRing valRing T pf

/-! ## The equations -/

/-- What an accepted proof satisfies, for rings of `2 ^ m` members. -/
structure Accepted (m : Nat) (xc : ZMod L) (ownRing valRing : List M) (T : M)
    (pf : AnonSpendProof L M) : Prop where
  ownSize : ownRing.length = 2 ^ m
  valSize : valRing.length = 2 ^ m
  tag : multByCofactor T ≠ 0
  digits : pf.m = m
  lengths : ∀ length ∈ pf.lengths, length = m
  digit : ∀ j < m, scalarMult xc (pf.cl.getD j 0) + pf.ca.getD j 0 =
    commScalar gens (pf.f.getD j 0) (pf.za.getD j 0)
  square : ∀ j < m, scalarMult (xc - pf.f.getD j 0) (pf.cl.getD j 0) + pf.cb.getD j 0 =
    commScalar gens 0 (pf.zb.getD j 0)
  own : ∑ i ∈ Finset.range (2 ^ m), scalarMult (selectorAt pf.f xc m i) (ownRing.getD i 0) -
    ∑ k ∈ Finset.range m, scalarMult (xc ^ k) (pf.cdO.getD k 0) = scalarMult pf.zdO gens.G
  image : scalarMult (xc ^ m) (multByCofactor T) -
    ∑ k ∈ Finset.range m, multByCofactor (scalarMult (xc ^ k) (pf.cdt.getD k 0)) =
      multByCofactor (scalarMult pf.zdO gens.uGen)
  value : ∑ i ∈ Finset.range (2 ^ m), scalarMult (selectorAt pf.f xc m i) (valRing.getD i 0) -
    ∑ k ∈ Finset.range m, scalarMult (xc ^ k) (pf.cdV.getD k 0) = scalarMult pf.zdV gens.G

theorem powerOfTwo_iff {n : Nat} : ¬ (n = 0 ∨ n &&& (n - 1) ≠ 0) ↔ ∃ m, n = 2 ^ m := by
  rw [not_or, not_not]
  exact Nat.ne_zero_and_sub_one_eq_zero_iff_isPowerOfTwo

omit [DecidableEq M] in
/-- The loop is a sum. -/
theorem foldl_add (term : Nat → M) (start : M) (n : Nat) :
    (List.range n).foldl (fun acc i => acc + term i) start =
      start + ∑ i ∈ Finset.range n, term i := by
  induction n with
  | zero => simp
  | succ n ih =>
    rw [List.range_succ, List.foldl_append, ih, Finset.sum_range_succ, ← add_assoc]
    rfl

omit [DecidableEq M] in
theorem foldl_sub (term : Nat → M) (start : M) (n : Nat) :
    (List.range n).foldl (fun acc k => acc - term k) start =
      start - ∑ k ∈ Finset.range n, term k := by
  simp only [sub_eq_add_neg]
  rw [foldl_add, Finset.sum_neg_distrib]

theorem selectorAt_eq (f : List (ZMod L)) (xc : ZMod L) (m i : Nat) :
    selectorAt f xc m i =
      ∏ j ∈ Finset.range m, if i.testBit j then f.getD j 0 else xc - f.getD j 0 := by
  induction m with
  | zero => rfl
  | succ m ih =>
    rw [selectorAt, List.range_succ, List.foldl_append, ← selectorAt, ih,
      Finset.prod_range_succ]
    simp only [List.foldl_cons, List.foldl_nil]
    split_ifs
    · rfl
    · rfl

omit [DecidableEq M] in
theorem accumulate_eq (ring cd : List M) (f : List (ZMod L)) (xc : ZMod L) (m n : Nat) :
    accumulate ring cd f xc m n =
      ∑ i ∈ Finset.range n, scalarMult (selectorAt f xc m i) (ring.getD i 0) -
        ∑ k ∈ Finset.range m, scalarMult (xc ^ k) (cd.getD k 0) := by
  rw [accumulate, foldl_sub, foldl_add, zero_add]

/-- The verifier accepts exactly when the equations hold. -/
theorem verifyTranscript_iff {xc : ZMod L} {ownRing valRing : List M} {T : M}
    {pf : AnonSpendProof L M} :
    verifyTranscript gens xc ownRing valRing T pf = true ↔
      ∃ m, Accepted gens m xc ownRing valRing T pf := by
  constructor
  · intro accepted
    rw [verifyTranscript] at accepted
    simp only at accepted
    by_cases size : ownRing.length = 0 ∨ ownRing.length &&& (ownRing.length - 1) ≠ 0 ∨
        valRing.length ≠ ownRing.length
    · rw [if_pos size] at accepted
      exact absurd accepted Bool.false_ne_true
    · rw [if_neg size, canonicalTag] at accepted
      rw [← or_assoc, not_or, powerOfTwo_iff, not_not] at size
      obtain ⟨⟨m, ownSize⟩, valSize⟩ := size
      rw [ownSize, trailingZeros_two_pow] at accepted
      by_cases low : multByCofactor T = 0
      · rw [if_pos low] at accepted
        exact absurd accepted Bool.false_ne_true
      · rw [if_neg low] at accepted
        simp only at accepted
        split_ifs at accepted with digits lengths bits own image
        simp only [not_not] at digits lengths bits own image
        rw [List.all_eq_true] at lengths bits
        have digit := fun j (below : j < m) =>
          of_decide_eq_true (bits j (List.mem_range.mpr below))
        rw [accumulate_eq] at own
        rw [accumulateTag, foldl_sub] at image
        rw [decide_eq_true_eq, accumulate_eq] at accepted
        exact ⟨m, ownSize, valSize.trans ownSize, low, digits,
          fun length member => of_decide_eq_true (lengths length member),
          fun j below => (digit j below).1, fun j below => (digit j below).2, own, image, accepted⟩
  · rintro ⟨m, accepted⟩
    have size : ¬ (ownRing.length = 0 ∨ ownRing.length &&& (ownRing.length - 1) ≠ 0 ∨
        valRing.length ≠ ownRing.length) := by
      rw [← or_assoc, not_or, powerOfTwo_iff, not_not]
      exact ⟨⟨m, accepted.ownSize⟩, accepted.valSize.trans accepted.ownSize.symm⟩
    have lengths : pf.lengths.all (· = m) = true := by
      rw [List.all_eq_true]
      exact fun length member => decide_eq_true (accepted.lengths length member)
    have bits : (List.range m).all (digitOK gens pf xc) = true := by
      rw [List.all_eq_true]
      exact fun j member => decide_eq_true
        ⟨accepted.digit j (List.mem_range.mp member), accepted.square j (List.mem_range.mp member)⟩
    have own := accepted.own
    have image := accepted.image
    have value := accepted.value
    rw [← accumulate_eq] at own value
    rw [← foldl_sub, ← accumulateTag] at image
    rw [verifyTranscript]
    simp only
    rw [if_neg size, canonicalTag, if_neg accepted.tag, accepted.ownSize, trailingZeros_two_pow]
    simp only
    rw [if_neg (not_not.mpr accepted.digits), if_neg (not_not.mpr lengths),
      if_neg (not_not.mpr bits), if_neg (not_not.mpr own), if_neg (not_not.mpr image)]
    exact decide_eq_true value

end Curve

end Obscura.Commit
