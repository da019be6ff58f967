import Mathlib.Algebra.Group.Hom.Defs
import Mathlib.Algebra.Ring.Defs
import Mathlib.Tactic.Abel
import Mathlib.Tactic.Ring

/-! # Schnorr responses over a group with scalars

The algebra behind Schnorr proofs, adaptor signatures and their aggregation. A
response *answers* a challenge for a nonce point and a key when it satisfies the
verification equation. Responses under one challenge add up, and the difference
of two responses under one challenge and one key is a discrete logarithm of the
difference of their nonce points.
-/

namespace Schnorr

/-- A commutative group with scalars. Multiples of the base point add and
multiply like the scalars do; on the other points a scalar only has to act
additively, so curves with points of small order are included. -/
structure Curve (Scalar Point : Type*) [CommRing Scalar] [AddCommGroup Point] where
  base : Scalar →+ Point
  mult : Scalar → Point →+ Point
  mult_base : ∀ scalar secret, mult scalar (base secret) = base (scalar * secret)

variable {Scalar Point : Type*} [CommRing Scalar] [AddCommGroup Point]

/-- The response of the holder of `secret` to a challenge. -/
def respond (nonce challenge secret : Scalar) : Scalar :=
  nonce + challenge * secret

namespace Curve

variable (curve : Curve Scalar Point)

/-- The verification equation of a Schnorr response. -/
def Answers (challenge : Scalar) (nonce key : Point) (response : Scalar) : Prop :=
  curve.base response = nonce + curve.mult challenge key

theorem answers_respond (nonce challenge secret : Scalar) :
    curve.Answers challenge (curve.base nonce) (curve.base secret)
      (respond nonce challenge secret) := by
  rw [Answers, respond, map_add, curve.mult_base]

variable {curve}

namespace Answers

variable {challenge left right : Scalar} {nonce nonce' key key' : Point}

theorem add (first : curve.Answers challenge nonce key left)
    (second : curve.Answers challenge nonce' key' right) :
    curve.Answers challenge (nonce + nonce') (key + key') (left + right) := by
  rw [Answers] at first second ⊢
  rw [map_add, first, second, map_add]
  abel

theorem base_sub (first : curve.Answers challenge nonce key left)
    (second : curve.Answers challenge nonce' key right) :
    curve.base (left - right) = nonce - nonce' := by
  rw [Answers] at first second
  rw [map_sub, first, second]
  abel

theorem shift (answers : curve.Answers challenge nonce key left) (secret : Scalar) :
    curve.Answers challenge (nonce + curve.base secret) key (left + secret) := by
  rw [Answers] at answers ⊢
  rw [map_add, answers]
  abel

end Answers

end Curve

end Schnorr
