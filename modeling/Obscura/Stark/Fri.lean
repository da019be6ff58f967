import Mathlib.Data.Int.Bitwise
import Obscura.Stark.Transcript

/-! # The low-degree test

FRI over the extension field: the values of a layer lie in the extension, its points in the
base field. A proof carries its own degree bound, and from it the verifier takes the number of
layers, the size of every domain and the range of the query positions.
-/

namespace Obscura.Stark

open Wire

/-- How much larger the opened domain is than the degree. -/
def friBlowup : Nat := 4

/-- The work that the prover puts in before the queries are drawn. -/
def friGrindBits : Nat := 16

/-- `airCoset`. -/
def airCoset : Felt := generator

/-- The two values of a layer that fold into one, with their paths. -/
structure FriLayerProof2 where
  X : Felt2
  XSym : Felt2
  path : List Bytes

/-- A position and its values in each layer. -/
structure FriQuery2 where
  pos : Int
  layers : List FriLayerProof2

/-- A folding proof: the layers' roots, the last value and the queries. -/
structure FriProof2 where
  degree : Int
  roots : List Bytes
  finalValue : Felt2
  grind : UInt64
  queries : List FriQuery2

/-- `fri2Leaf`. -/
def fri2Leaf (x xsym : Felt2) : List Felt := [x.A, x.B, xsym.A, xsym.B]

/-- `fold2`: the even part and `alpha` times the odd part. -/
def fold2 (fx fsym : Felt2) (x : Felt) (alpha : Felt2) : Felt2 :=
  let twoInv := (Felt.ofNat 2).inv
  let even := (fx.add fsym).mulBase twoInv
  let odd := (fx.sub fsym).mulBase ((Felt.ofNat 2).mul x).inv
  even.add (alpha.mul odd)

/-- `cosetPows[j]`: the shift of layer `j`'s domain. -/
def cosetPow (coset : Felt) : Nat → Felt
  | 0 => coset
  | j + 1 => (cosetPow coset j).mul (cosetPow coset j)

/-- The point of layer `j`'s domain at position `p`, in a test of degree `d`. -/
def foldPoint (coset : Felt) (d j p : Nat) : Option Felt :=
  (rootOfUnity (log2 (friBlowup * d) - j)).map fun wj =>
    (cosetPow coset j).mul (wj.exp (UInt64.ofNat p))

section Verify

variable (sum256 : Bytes → Bytes)

/-- The fold challenges, drawn as the layer roots are absorbed. -/
def foldChallenges : List Bytes → Transcript → List Felt2 × Transcript
  | [], tr => ([], tr)
  | root :: roots, tr =>
    let (alpha, tr) := Transcript.challengeFelt2 sum256 (tr.absorbRoot sum256 root)
    let (alphas, tr) := foldChallenges roots tr
    (alpha :: alphas, tr)

/-- The value of a `±` pair at the position the layer above folds to. -/
def FriLayerProof2.at (lp : FriLayerProof2) (pos n : Nat) : Felt2 :=
  if pos % n < n / 2 then lp.X else lp.XSym

/-- One queried layer: the pair is authenticated, compared with what the layer above folded to,
and folded. -/
def foldLayer (coset : Felt) (d pos j : Nat) (expected : Option Felt2) (root : Bytes)
    (alpha : Felt2) (lp : FriLayerProof2) : Option Felt2 :=
  let nj := friBlowup * d / 2 ^ j
  let half := nj / 2
  let p := pos % half
  if verifyRowMerkle sum256 root half p (fri2Leaf lp.X lp.XSym) lp.path = false then none
  else if expected.any (fun value => value ≠ lp.at pos nj) then none
  else (foldPoint coset d j p).map fun x => fold2 lp.X lp.XSym x alpha

/-- The layers `j, j + 1, …` of a query. -/
def foldLayers (coset : Felt) (d pos : Nat) :
    Nat → Option Felt2 → List (Bytes × Felt2 × FriLayerProof2) → Option Felt2
  | _, expected, [] => expected
  | j, expected, (root, alpha, lp) :: rest =>
    (foldLayer sum256 coset d pos j expected root alpha lp).bind fun value =>
      foldLayers coset d pos (j + 1) (some value) rest

/-- The queries one after the other: the position of each is drawn, and its layers must fold
down to the final value. -/
def checkQueries (coset : Felt) (d : Nat) (pf : FriProof2) (alphas : List Felt2) :
    List FriQuery2 → Transcript → Option (List Nat)
  | [], _ => some []
  | query :: queries, tr =>
    let (pos, tr) := tr.challengeIndex sum256 (friBlowup * d / 2)
    if query.pos ≠ pos ∨ query.layers.length ≠ log2 d then none
    else if foldLayers sum256 coset d pos 0 none (pf.roots.zip (alphas.zip query.layers)) =
        some pf.finalValue then
      (checkQueries coset d pf alphas queries tr).map fun positions => pos :: positions
    else none

/-- `friVerifyShared2`: the layer-0 positions. A proof without roots reads past its roots, which
panics. -/
def friVerifyShared2 (pf : FriProof2) (nQueries : Nat) (tr : Transcript) (coset : Felt) :
    Option (List Nat) :=
  if pf.degree = 0 ∨ Int.land pf.degree (pf.degree - 1) ≠ 0 then none
  else
    let d := pf.degree.toNat
    if pf.roots.length ≠ log2 d ∨ pf.roots = [] then none
    else
      let (alphas, tr) := foldChallenges sum256 pf.roots tr
      let tr := tr.absorbFelt2 sum256 pf.finalValue
      (tr.verifyGrind sum256 friGrindBits pf.grind).bind fun tr =>
        if pf.queries.length ≠ nQueries then none
        else checkQueries sum256 coset d pf alphas pf.queries tr

end Verify

/-- `layer0`: the opened layer-0 pair of query `q`. -/
def FriProof2.layer0 (pf : FriProof2) (q : Nat) : Option (Felt2 × Felt2) :=
  pf.queries[q]?.bind fun query => query.layers[0]?.map fun lp => (lp.X, lp.XSym)

end Obscura.Stark
