import Mathlib.Algebra.Field.Basic
import Mathlib.Algebra.Module.Torsion.Field
import Mathlib.Tactic.Module

/-! # Equal discrete logarithms

The protocol of Chaum and Pedersen over a vector space. A response answers a challenge when
it returns the two commitments from the statement. The holder of the logarithm answers every
challenge; answers to two challenges for one pair of commitments give the logarithm, so a
false statement is answered for one challenge at most. Of the two statements about a base
point, a key, a nonce point and a shared point that the key's owner and the nonce's owner
can make, either one says that the shared point is the key's secret times the nonce point.
-/

namespace ChaumPedersen

variable {F M : Type*} [Field F] [AddCommGroup M] [Module F M]

/-- The points are the bases multiplied by one scalar. -/
def SameLog (F : Type*) {M : Type*} [Field F] [AddCommGroup M] [Module F M]
    (g₁ p₁ g₂ p₂ : M) : Prop :=
  ∃ x : F, p₁ = x • g₁ ∧ p₂ = x • g₂

/-- The commitment that a response to a challenge belongs to. -/
def committed (g p : M) (c s : F) : M := s • g - c • p

/-- A response to a challenge for given commitments. -/
structure Answers (g₁ p₁ g₂ p₂ t₁ t₂ : M) (c s : F) : Prop where
  first : committed g₁ p₁ c s = t₁
  second : committed g₂ p₂ c s = t₂

/-- The response of the holder of the secret `x` with the nonce `k`. -/
def respond (c x k : F) : F := c * x + k

/-- The logarithm that two responses share. -/
def extract (c s c' s' : F) : F := (s - s') / (c - c')

variable {g p g₁ p₁ g₂ p₂ t₁ t₂ : M} {c s c' s' : F}

@[simp] theorem committed_respond (g : M) (c x k : F) :
    committed g (x • g) c (respond c x k) = k • g := by
  rw [committed, respond]
  module

theorem extract_smul (apart : c ≠ c') (same : committed g p c s = committed g p c' s') :
    p = extract c s c' s' • g := by
  have differ : c - c' ≠ 0 := sub_ne_zero.mpr apart
  have scaled : (c - c') • p = (s - s') • g := by
    rw [committed, committed, sub_eq_sub_iff_sub_eq_sub] at same
    rw [sub_smul, sub_smul, same]
  calc p = (c - c')⁻¹ • ((c - c') • p) := (inv_smul_smul₀ differ p).symm
    _ = (c - c')⁻¹ • ((s - s') • g) := by rw [scaled]
    _ = extract c s c' s' • g := by rw [smul_smul, extract, div_eq_inv_mul]

theorem Answers.sameLog (answers : Answers g₁ p₁ g₂ p₂ t₁ t₂ c s)
    (again : Answers g₁ p₁ g₂ p₂ t₁ t₂ c' s') (apart : c ≠ c') : SameLog F g₁ p₁ g₂ p₂ :=
  ⟨extract c s c' s', extract_smul apart (answers.first.trans again.first.symm),
    extract_smul apart (answers.second.trans again.second.symm)⟩

namespace SameLog

variable {base key nonce shared : M} {a : F}

theorem shared_eq (nonzero : base ≠ 0) (own : key = a • base)
    (same : SameLog F base key nonce shared) : shared = a • nonce := by
  obtain ⟨x, logged, rfl⟩ := same
  rw [own] at logged
  rw [smul_left_injective F nonzero logged]

theorem shared_eq_of_nonce (own : key = a • base) (same : SameLog F base nonce key shared) :
    shared = a • nonce := by
  obtain ⟨r, rfl, rfl⟩ := same
  rw [own, smul_comm]

end SameLog

end ChaumPedersen
