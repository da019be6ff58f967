import Obscura.Lib.Schnorr
import Obscura.Lib.Wire
import Obscura.Config

/-! # Adaptor signatures and swap outputs

Adaptor pre-signatures, their adaptation and extraction, proofs of possession,
and the two spending conditions of a swap output, over any group with scalars.
A point or a scalar that travels as 32 bytes in the source is the decoded point
or scalar here; hashing encodes it again.
-/

namespace Obscura.Swap

open Wire Schnorr

/-- The curve together with the hash and the encodings that enter a challenge. -/
structure Suite (Scalar Point : Type) [CommRing Scalar] [AddCommGroup Point] extends
    Curve Scalar Point where
  sha512 : Bytes → Bytes
  setUniformBytes : Bytes → Scalar
  pointBytes : Point → Bytes
  scalarBytes : Scalar → Bytes
  /-- The network's domain separator. -/
  netDom : Bytes

/-- A pre-signature: the nonce point without the adaptor point. -/
structure AdaptorSig (Scalar Point : Type) where
  R : Point
  s : Scalar
deriving DecidableEq

/-- A signature that the chain accepts. -/
structure FullSig (Scalar Point : Type) where
  R : Point
  s : Scalar
deriving DecidableEq

/-- A proof that the exponent of a point is known. -/
structure SchnorrProof (Scalar Point : Type) where
  R : Point
  s : Scalar
deriving DecidableEq

variable {Scalar Point : Type} [CommRing Scalar] [AddCommGroup Point] [DecidableEq Point]
variable (S : Suite Scalar Point)

/-- `HashToScalar`: the parts, one after another. -/
def hashToScalar (data : List Bytes) : Scalar :=
  S.setUniformBytes (S.sha512 data.flatten)

/-- The challenge of the full nonce point, the key and the message. -/
def adaptorChallenge (noncePlusT P : Point) (m : Bytes) : Scalar :=
  hashToScalar S [S.netDom, ascii "Obscura/adaptor", S.pointBytes noncePlusT, S.pointBytes P, m]

/-- The source returns nil for the identity adaptor point. -/
def preSign (x r : Scalar) (m : Bytes) (T : Point) : Option (AdaptorSig Scalar Point) :=
  if T = 0 then
    none
  else
    let R := S.base r
    let e := adaptorChallenge S (R + T) (S.base x) m
    some { R, s := r + e * x }

/-- `PreVerify`: a pre-signature under a key and an adaptor point. -/
def preVerify (P : Point) (m : Bytes) (T : Point) (pre : AdaptorSig Scalar Point) : Bool :=
  if T = 0 then
    false
  else
    let e := adaptorChallenge S (pre.R + T) P m
    S.base pre.s == pre.R + S.mult e P

/-- `Adapt`: the adaptor secret completes a pre-signature. -/
def adapt (pre : AdaptorSig Scalar Point) (t : Scalar) (T : Point) : FullSig Scalar Point where
  R := pre.R + T
  s := pre.s + t

/-- `Sign`: a plain signature with a chosen nonce. -/
def sign (x r : Scalar) (m : Bytes) : FullSig Scalar Point :=
  let R := S.base r
  { R, s := r + adaptorChallenge S R (S.base x) m * x }

/-- `VerifyFull`: a complete signature under a key. -/
def verifyFull (P : Point) (m : Bytes) (sig : FullSig Scalar Point) : Bool :=
  if P = 0 then
    false
  else
    S.base sig.s == sig.R + S.mult (adaptorChallenge S sig.R P m) P

/-- `Extract`: the adaptor secret, from both signatures. -/
def extract (pre : AdaptorSig Scalar Point) (full : FullSig Scalar Point) : Scalar :=
  full.s - pre.s

/-- What a proof of possession is made under. -/
def popDomain : Bytes := ascii "Obscura/swap/pop"

/-- `ProveDLog` with a chosen nonce. -/
def proveDLog (k : Scalar) (P : Point) (x : Scalar) (ctx : Bytes) : SchnorrProof Scalar Point :=
  let R := S.base k
  { R, s := k + hashToScalar S [S.netDom, ctx, S.pointBytes P, S.pointBytes R] * x }

/-- `VerifyDLog`. -/
def verifyDLog (P : Point) (proof : SchnorrProof Scalar Point) (ctx : Bytes) : Bool :=
  let e := hashToScalar S [S.netDom, ctx, S.pointBytes P, S.pointBytes proof.R]
  S.base proof.s == proof.R + S.mult e P

/-- The prover draws the nonce `k` at random. -/
def provePossession (k x : Scalar) : SchnorrProof Scalar Point :=
  proveDLog S k (S.base x) x popDomain

/-- `VerifyPossession`: the exponent of a key that is not the identity. -/
def verifyPossession (P : Point) (proof : SchnorrProof Scalar Point) : Bool :=
  if P = 0 then false else verifyDLog S P proof popDomain

/-- `AggregateKey`: the sum of both keys. -/
def aggregateKey (A B : Point) : Point := A + B

/-- `AggregateKeyVerified`: the sum, once both parties have shown their keys to be theirs. -/
def aggregateKeyVerified (A B : Point) (popA popB : SchnorrProof Scalar Point) : Option Point :=
  if !verifyPossession S A popA || !verifyPossession S B popB then
    none
  else
    some (aggregateKey A B)

/-- `ClaimBindingOK`: the claim's nonce point reveals the adaptor secret. -/
def claimBindingOK (sigR R T : Point) : Bool :=
  if T = 0 then false else sigR == R + T

/-- A swap output as a counterparty reads it from the chain. -/
structure SwapOutput (Point : Type) where
  claimKey : Point
  refundKey : Point
  unlockHeight : UInt64
  amount : UInt64
  claimR : Point
  claimT : Point
deriving DecidableEq

/-- `VerifyClaim`: before the margin, by a complete signature. -/
def SwapOutput.verifyClaim (so : SwapOutput Point) (height : UInt64) (msg : Bytes)
    (sig : FullSig Scalar Point) : Bool :=
  let margin := UInt64.ofNat Config.swapReorgMargin
  if so.unlockHeight < margin ∨ so.unlockHeight - margin < height then
    false
  else if !claimBindingOK sig.R so.claimR so.claimT then
    false
  else
    verifyFull S so.claimKey msg sig

/-- `VerifyRefund`: from the unlock height on. -/
def SwapOutput.verifyRefund (so : SwapOutput Point) (height : UInt64) (msg : Bytes)
    (sig : FullSig Scalar Point) : Bool :=
  if height < so.unlockHeight then false else verifyFull S so.refundKey msg sig

/-! ## What the verifiers accept -/

theorem preVerify_iff {P T : Point} {m : Bytes} {pre : AdaptorSig Scalar Point} :
    preVerify S P m T pre = true ↔
      T ≠ 0 ∧ S.Answers (adaptorChallenge S (pre.R + T) P m) pre.R P pre.s := by
  by_cases identity : T = 0 <;> simp [preVerify, identity, Curve.Answers]

theorem verifyFull_iff {P : Point} {m : Bytes} {sig : FullSig Scalar Point} :
    verifyFull S P m sig = true ↔
      P ≠ 0 ∧ S.Answers (adaptorChallenge S sig.R P m) sig.R P sig.s := by
  by_cases identity : P = 0 <;> simp [verifyFull, identity, Curve.Answers]

theorem claimBindingOK_iff {sigR R T : Point} :
    claimBindingOK sigR R T = true ↔ T ≠ 0 ∧ sigR = R + T := by
  by_cases identity : T = 0 <;> simp [claimBindingOK, identity]

theorem verifyPossession_iff {P : Point} {proof : SchnorrProof Scalar Point} :
    verifyPossession S P proof = true ↔ P ≠ 0 ∧ verifyDLog S P proof popDomain = true := by
  by_cases identity : P = 0 <;> simp [verifyPossession, identity]

theorem verifyPossession_provePossession {k x : Scalar} (proper : S.base x ≠ 0) :
    verifyPossession S (S.base x) (provePossession S k x) = true := by
  rw [verifyPossession_iff]
  refine ⟨proper, ?_⟩
  simp only [verifyDLog, provePossession, proveDLog, beq_iff_eq]
  exact S.answers_respond _ _ _

theorem verifyFull_adapt {P : Point} {m : Bytes} {t : Scalar} {pre : AdaptorSig Scalar Point}
    (proper : P ≠ 0) (verified : preVerify S P m (S.base t) pre = true) :
    verifyFull S P m (adapt pre t (S.base t)) = true := by
  obtain ⟨-, answers⟩ := (preVerify_iff S).mp verified
  exact (verifyFull_iff S).mpr ⟨proper, answers.shift t⟩

omit [DecidableEq Point] in
theorem extract_adapt (pre : AdaptorSig Scalar Point) (t : Scalar) (T : Point) :
    extract pre (adapt pre t T) = t := by
  simp [extract, adapt]

/-- Any signature bound to the nonce and the adaptor point of a pre-signature
reveals a discrete logarithm of the adaptor point. -/
theorem base_extract {P T : Point} {m : Bytes} (pre : AdaptorSig Scalar Point)
    {full : FullSig Scalar Point}
    (answers : S.Answers (adaptorChallenge S (pre.R + T) P m) pre.R P pre.s)
    (bound : full.R = pre.R + T) (verified : verifyFull S P m full = true) :
    S.base (extract pre full) = T := by
  obtain ⟨-, signed⟩ := (verifyFull_iff S).mp verified
  rw [bound] at signed
  rw [extract, signed.base_sub answers]
  abel

end Obscura.Swap
