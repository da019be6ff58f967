import Obscura.Stark.Fri
import Obscura.Stark.Ntt

/-! # Verifying an AIR proof

A proof of a circuit commits to the trace columns and to the composition of their constraint
quotients, states their values at a point outside the domain, and proves with an embedded FRI
proof that the DEEP combination of both has low degree. Every field of a proof is the prover's.
-/

namespace Obscura.Stark

open Wire

/-- A column that is bound to a value at a row. -/
structure Boundary where
  col : Nat
  row : Nat
  val : Felt

/-- A circuit: its columns, its constraints and its boundaries. -/
structure Circuit where
  name : Bytes
  cols : Nat
  periodic : Nat
  traceLen : Nat
  periodicCol : Nat → List Felt
  boundaries : List Boundary
  constraintsFelt : (cur next per : List Felt) → List Felt
  constraintsExt : (cur next per : List Felt2) → List Felt2

/-- The opened values at a position, with their paths. -/
structure RowOpen where
  cols : List Felt
  colPath : List Bytes
  CP : Felt
  CPPath : List Bytes

/-- A proof: the roots, the folding proof, and the rows opened at each query. -/
structure AIRProof where
  degree : Int
  rootCols : Bytes
  rootCP : Bytes
  Fz : List Felt2
  Fgz : List Felt2
  CPz : Felt2
  fri : FriProof2
  openP : List RowOpen
  openS : List RowOpen

/-- The largest degree whose evaluation domain the field has. -/
def maxAIRDegree : Nat := 2 ^ (twoAdicity - 2)

/-- The point of the opened domain of a proof of degree `d` at position `p`. -/
def openPoint (d p : Nat) : Option Felt :=
  (rootOfUnity (log2 (friBlowup * d))).map fun wN => airCoset.mul (wN.exp (UInt64.ofNat p))

/-- `airDeep`. -/
def airDeep (gc : List (Felt2 × Felt2)) (gcCP : Felt2) (fx : List Felt) (cpx : Felt)
    (fz fgz : List Felt2) (cpz : Felt2) (x : Felt) (z gHz : Felt2) : Felt2 :=
  let xe := Felt2.ofFelt x
  let invZ := (xe.sub z).inv
  let invGZ := (xe.sub gHz).inv
  let cells := fx.zip (gc.zip (fz.zip fgz))
  let acc := cells.foldl (fun (acc : Felt2) (fxc, (gcZ, gcGZ), fzc, fgzc) =>
    let fxe := Felt2.ofFelt fxc
    (acc.add (gcZ.mul ((fxe.sub fzc).mul invZ))).add (gcGZ.mul ((fxe.sub fgzc).mul invGZ)))
    Felt2.zero
  acc.add (gcCP.mul (((Felt2.ofFelt cpx).sub cpz).mul invZ))

section Verify

variable (sum256 : Bytes → Bytes)

/-- The shape of the circuit, absorbed before any challenge. -/
def absorbCircuit (c : Circuit) (d : Nat) (tr : Transcript) : Transcript :=
  let absorb (tr : Transcript) (n : Nat) : Transcript := tr.absorbFelt sum256 (.ofNat n)
  let tr := absorb (absorb (absorb (absorb tr c.traceLen) c.cols) c.periodic) d
  c.boundaries.foldl (fun tr b => (absorb (absorb tr b.col) b.row).absorbFelt sum256 b.val) tr

/-- What the verifier has drawn when it comes to the embedded FRI proof. -/
structure View where
  z : Felt2
  gHz : Felt2
  gc : List (Felt2 × Felt2)
  gcCP : Felt2
  tr : Transcript

/-- The composition's value at `z`, from the constraints and the boundaries. -/
def compositionAt (c : Circuit) (pf : AIRProof) (gH : Felt) (z : Felt2) (coeffs : List Felt)
    (consZ : List Felt2) : Option Felt2 :=
  let hLast := gH.exp (UInt64.ofNat (c.traceLen - 1))
  let zTrans := ((z.exp (UInt64.ofNat c.traceLen)).sub .one).mul (z.sub (.ofFelt hLast)).inv
  let zTransInv := zTrans.inv
  let transitions := (consZ.zip coeffs).foldl (fun (acc : Felt2) (cv, coeff) =>
    acc.add ((cv.mul zTransInv).mulBase coeff)) Felt2.zero
  (c.boundaries.zip (coeffs.drop consZ.length)).foldlM (fun (acc : Felt2) (b, coeff) =>
    pf.Fz[b.col]?.map fun value =>
      let qb := (value.sub (.ofFelt b.val)).mul
        (z.sub (.ofFelt (gH.exp (UInt64.ofNat b.row)))).inv
      acc.add (qb.mulBase coeff)) transitions

/-- The first half of `VerifyAIR`: the checks on the shape of the proof and the relation of the
claimed values at `z`. `none` is a rejected proof. -/
def airView (netIDHex : Bytes) (tries : Nat) (c : Circuit) (pf : AIRProof) : Option View := do
  let T := c.traceLen
  guard ¬(T < 2 ∨ T &&& (T - 1) ≠ 0 ∨ pf.Fz.length ≠ c.cols ∨ pf.Fgz.length ≠ c.cols)
  guard ¬(pf.degree < T ∨ (maxAIRDegree : Int) < pf.degree ∨
    Int.land pf.degree (pf.degree - 1) ≠ 0)
  let d := pf.degree.toNat
  let gH ← rootOfUnity (log2 T)
  let tr := newTranscript sum256 netIDHex (ascii "stark/air:" ++ c.name)
  let tr := (absorbCircuit sum256 c d tr).absorbRoot sum256 pf.rootCols
  let perPolys ← (List.range c.periodic).mapM fun j => inverseNtt (c.periodicCol j)
  let blank := List.replicate c.cols Felt.zero
  let nTrans := (c.constraintsFelt blank blank (perPolys.map fun p => evalPoly p .one)).length
  let (coeffs, tr) := tr.challengeFelts sum256 (nTrans + c.boundaries.length)
  let tr := tr.absorbRoot sum256 pf.rootCP
  let (z, tr) ← tr.drawOutOfDomain2 sum256 (friBlowup * d) airCoset tries
  let gHz := z.mulBase gH
  let consZ := c.constraintsExt pf.Fz pf.Fgz (perPolys.map fun p => evalBaseAt2 p z)
  guard (consZ.length = nTrans)
  let cpExpected ← compositionAt c pf gH z coeffs consZ
  guard (cpExpected = pf.CPz)
  let tr := (pf.Fz.zip pf.Fgz).foldl (fun (tr : Transcript) (fz, fgz) =>
    (tr.absorbFelt2 sum256 fz).absorbFelt2 sum256 fgz) tr
  let tr := tr.absorbFelt2 sum256 pf.CPz
  let (gc, tr) := tr.challengePairs sum256 c.cols
  let (gcCP, tr) := tr.challengeFelt2 sum256
  some ⟨z, gHz, gc, gcCP, tr⟩

/-- `authRow`: the row of an opening, authenticated at position `p`. -/
def authRow (c : Circuit) (pf : AIRProof) (o : RowOpen) (p : Nat) : Option (List Felt × Felt) :=
  let n0 := friBlowup * pf.degree.toNat
  if o.cols.length ≠ c.cols then none
  else if verifyRowMerkle sum256 pf.rootCols n0 p o.cols o.colPath = false then none
  else if verifyMerkle sum256 pf.rootCP n0 p o.CP o.CPPath = false then none
  else some (o.cols, o.CP)

/-- One side of the DEEP cross-check: the opening is authenticated at position `p`, and the
combination of its row at the point of `p` is the value FRI opened. -/
def deepAgrees (c : Circuit) (pf : AIRProof) (view : View) (o : RowOpen) (p : Nat)
    (g : Felt2) : Bool :=
  match authRow sum256 c pf o p, openPoint pf.degree.toNat p with
  | some (f, cp), some x =>
    airDeep view.gc view.gcCP f cp pf.Fz pf.Fgz pf.CPz x view.z view.gHz == g
  | _, _ => false

/-- The cross-check of query `q`, whose layer-0 position is `pos`. -/
def queryAgrees (c : Circuit) (pf : AIRProof) (view : View) (q pos : Nat) : Bool :=
  let half := friBlowup * pf.degree.toNat / 2
  let p := pos % half
  match pf.openP[q]?, pf.openS[q]?, pf.fri.layer0 q with
  | some oP, some oS, some (gP, gS) =>
    deepAgrees sum256 c pf view oP p gP && deepAgrees sum256 c pf view oS (p + half) gS
  | _, _, _ => false

/-- `VerifyAIR`. A panic counts as a rejection, as its recovery makes it. -/
def verifyAIR (netIDHex : Bytes) (tries : Nat) (c : Circuit) (pf : AIRProof) (nQueries : Nat) :
    Bool :=
  match airView sum256 netIDHex tries c pf with
  | none => false
  | some view =>
    match friVerifyShared2 sum256 pf.fri nQueries view.tr airCoset with
    | none => false
    | some positions =>
      if pf.openP.length ≠ nQueries ∨ pf.openS.length ≠ nQueries then false
      else positions.zipIdx.all fun (pos, q) => queryAgrees sum256 c pf view q pos

end Verify

end Obscura.Stark
