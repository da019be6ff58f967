import Mathlib
import Obscura.Witnesses

/-! # Nullifiers of hidden members

Spending a member of the accumulator without naming it: the witness is blinded, a proof over two
bases shows the relation, and a second one ties the nullifier to the same exponent. A node that
makes its proof from an exponent and a claimed witness is accepted exactly when the witness is
one; each member has one nullifier, and two exponents share theirs only when the generator of the
nullifiers to their difference is the identity (`nullifier_run`). That the exponent is a prime is
not part of the proof: the value itself with the exponent one is accepted.
-/

namespace Obscura.Witnesses

variable {G : Type}

/-- A proof of two exponents over two bases at once. -/
structure MultiPoKE (G : Type) where
  Z1 : G
  Z2 : G
  Q : G
  R1 : ℤ
  R2 : ℤ

/-- A hidden witness and the proof that it is one. -/
structure ZKMembership (G : Type) where
  C : G
  Proof : MultiPoKE G

/-- Two targets with one exponent. -/
structure EqualExp (G : Type) where
  Q1 : G
  Q2 : G
  R : ℤ

/-- A hidden membership, the nullifier and the proof that both have one exponent. -/
structure MembershipNullifier (G : Type) where
  Mem : ZKMembership G
  N : G
  Bind : EqualExp G

/-- The hashes behind the challenges and the blinder, and the generators that are derived by
hashing; `multiAlpha` has the tag `a1` or `a2`. -/
structure SpendHashes (G : Type) where
  multiChallenge : (B1 B2 T z1 z2 : G) → ℤ
  multiAlpha : (tag : String) → (B1 B2 T z1 z2 : G) → (ell : ℤ) → ℤ
  equalExpChallenge : (b1 b2 t1 t2 : G) → ℤ
  blind : (w : G) → ℤ
  hGenerator : G
  uGenerator : G

variable [CommGroup G] (H : SpendHashes G) (g : G)

/-- The prover of two exponents, with the challenge of the hash. -/
def proveMultiPoKE (B1 B2 T : G) (x1 x2 : ℤ) : MultiPoKE G :=
  let z1 := g ^ x1
  let z2 := g ^ x2
  let ell := H.multiChallenge B1 B2 T z1 z2
  let a1 := H.multiAlpha "a1" B1 B2 T z1 z2 ell
  let a2 := H.multiAlpha "a2" B1 B2 T z1 z2 ell
  let Q := B1 ^ (x1 / ell) * B2 ^ (x2 / ell) * g ^ (a1 * (x1 / ell) + a2 * (x2 / ell))
  ⟨z1, z2, Q, x1 % ell, x2 % ell⟩

/-- The challenge is made again; the residues must be below it. -/
def verifyMultiPoKE [DecidableEq G] (B1 B2 T : G) (pf : MultiPoKE G) : Bool :=
  let ell := H.multiChallenge B1 B2 T pf.Z1 pf.Z2
  let a1 := H.multiAlpha "a1" B1 B2 T pf.Z1 pf.Z2 ell
  let a2 := H.multiAlpha "a2" B1 B2 T pf.Z1 pf.Z2 ell
  !(pf.R1 < 0 || ell ≤ pf.R1 || pf.R2 < 0 || ell ≤ pf.R2) &&
    (pf.Q ^ ell * (B1 ^ pf.R1 * B2 ^ pf.R2) * g ^ (a1 * pf.R1 + a2 * pf.R2) =
      T * (pf.Z1 ^ a1 * pf.Z2 ^ a2) : Bool)

/-- The witness is blinded, then shown with its blinding. -/
def proveZKMembership (acc : G) (p : ℤ) (w : G) : ZKMembership G :=
  let C := w * H.hGenerator ^ H.blind w
  ⟨C, proveMultiPoKE H g C H.hGenerator acc p (-(H.blind w * p))⟩

/-- The blinded witness and its blinding give the accumulator. -/
def verifyZKMembership [DecidableEq G] (acc : G) (m : ZKMembership G) : Bool :=
  verifyMultiPoKE H g m.C H.hGenerator acc m.Proof

/-- The prover that two powers have one exponent. -/
def proveEqualExp (b1 b2 t1 t2 : G) (x : ℤ) : EqualExp G :=
  let ell := H.equalExpChallenge b1 b2 t1 t2
  ⟨b1 ^ (x / ell), b2 ^ (x / ell), x % ell⟩

/-- Both quotients and the common residue give the powers. -/
def verifyEqualExp [DecidableEq G] (b1 b2 t1 t2 : G) (pf : EqualExp G) : Bool :=
  let ell := H.equalExpChallenge b1 b2 t1 t2
  if pf.R < 0 || ell ≤ pf.R then false
  else if pf.Q1 ^ ell * b1 ^ pf.R ≠ t1 then false
  else pf.Q2 ^ ell * b2 ^ pf.R = t2

/-- The member is hidden and its nullifier is shown. -/
def proveMembershipNullifier (acc : G) (p : ℤ) (w : G) : MembershipNullifier G :=
  let m := proveZKMembership H g acc p w
  let N := H.uGenerator ^ p
  ⟨m, N, proveEqualExp H g H.uGenerator m.Proof.Z1 N p⟩

/-- The membership and the binding of the nullifier. -/
def verifyMembershipNullifier [DecidableEq G] (acc : G) (mn : MembershipNullifier G) : Bool :=
  verifyZKMembership H g acc mn.Mem &&
    verifyEqualExp H g H.uGenerator mn.Mem.Proof.Z1 mn.N mn.Bind

/-! ## Honest proofs -/

/-- The challenges are hashes to primes. -/
structure SpendHashes.Positive (H : SpendHashes G) : Prop where
  multi : ∀ B1 B2 T z1 z2, 0 < H.multiChallenge B1 B2 T z1 z2
  equalExp : ∀ b1 b2 t1 t2, 0 < H.equalExpChallenge b1 b2 t1 t2

variable {H g}

theorem zpow_divMod (b : G) (x ell : ℤ) : (b ^ (x / ell)) ^ ell * b ^ (x % ell) = b ^ x := by
  rw [← zpow_mul, ← zpow_add, Int.ediv_mul_add_emod]

theorem multi_gathered (g B1 B2 : G) (x1 x2 ell a1 a2 : ℤ) :
    (B1 ^ (x1 / ell) * B2 ^ (x2 / ell) * g ^ (a1 * (x1 / ell) + a2 * (x2 / ell))) ^ ell *
        (B1 ^ (x1 % ell) * B2 ^ (x2 % ell)) * g ^ (a1 * (x1 % ell) + a2 * (x2 % ell)) =
      B1 ^ x1 * B2 ^ x2 * ((g ^ x1) ^ a1 * (g ^ x2) ^ a2) := by
  have exponent : (a1 * (x1 / ell) + a2 * (x2 / ell)) * ell + (a1 * (x1 % ell) + a2 * (x2 % ell)) =
      x1 * a1 + x2 * a2 := by
    calc _ = a1 * (x1 / ell * ell + x1 % ell) + a2 * (x2 / ell * ell + x2 % ell) := by ring
      _ = x1 * a1 + x2 * a2 := by rw [Int.ediv_mul_add_emod, Int.ediv_mul_add_emod]; ring
  rw [← zpow_divMod B1 x1 ell, ← zpow_divMod B2 x2 ell, ← zpow_mul g x1, ← zpow_mul g x2,
    ← zpow_add, ← exponent]
  generalize a1 * (x1 / ell) + a2 * (x2 / ell) = quotient
  generalize a1 * (x1 % ell) + a2 * (x2 % ell) = remainder
  rw [zpow_add, zpow_mul, mul_zpow, mul_zpow]
  simp only [mul_assoc, mul_left_comm, mul_comm]

variable [DecidableEq G]

theorem verifyMultiPoKE_prove (positive : H.Positive) (B1 B2 T : G) (x1 x2 : ℤ) :
    verifyMultiPoKE H g B1 B2 T (proveMultiPoKE H g B1 B2 T x1 x2) = true ↔
      B1 ^ x1 * B2 ^ x2 = T := by
  have large := positive.multi B1 B2 T (g ^ x1) (g ^ x2)
  have sized : ∀ x : ℤ, 0 ≤ x % H.multiChallenge B1 B2 T (g ^ x1) (g ^ x2) ∧
      x % H.multiChallenge B1 B2 T (g ^ x1) (g ^ x2) <
        H.multiChallenge B1 B2 T (g ^ x1) (g ^ x2) := fun x =>
    ⟨Int.emod_nonneg x large.ne', Int.emod_lt_of_pos x large⟩
  unfold verifyMultiPoKE proveMultiPoKE
  dsimp only
  rw [Bool.and_eq_true, decide_eq_true_iff, multi_gathered, mul_left_inj]
  refine and_iff_right ?_
  simp [(sized x1).1, (sized x1).2, (sized x2).1, (sized x2).2]

theorem verifyEqualExp_prove (positive : H.Positive) (b1 b2 t1 t2 : G) (x : ℤ) :
    verifyEqualExp H b1 b2 t1 t2 (proveEqualExp H b1 b2 t1 t2 x) = true ↔
      b1 ^ x = t1 ∧ b2 ^ x = t2 := by
  unfold verifyEqualExp proveEqualExp
  dsimp only
  have large := positive.equalExp b1 b2 t1 t2
  generalize H.equalExpChallenge b1 b2 t1 t2 = ell at large ⊢
  rw [zpow_divMod, zpow_divMod, if_neg (by
    simpa using ⟨Int.emod_nonneg x large.ne', Int.emod_lt_of_pos x large⟩)]
  split_ifs with differs
  · exact iff_of_false not_false fun both => differs both.1
  · rw [decide_eq_true_iff, and_iff_right (not_not.mp differs)]

theorem verifyZKMembership_prove (positive : H.Positive) (acc w : G) (p : ℤ) :
    verifyZKMembership H g acc (proveZKMembership H g acc p w) = true ↔ w ^ p = acc := by
  unfold verifyZKMembership proveZKMembership
  dsimp only
  rw [verifyMultiPoKE_prove positive, mul_zpow, ← zpow_mul, mul_assoc, ← zpow_add,
    add_neg_cancel, zpow_zero, mul_one]

theorem verifyMembershipNullifier_prove (positive : H.Positive) (acc w : G) (p : ℤ) :
    verifyMembershipNullifier H g acc (proveMembershipNullifier H g acc p w) = true ↔
      w ^ p = acc := by
  unfold verifyMembershipNullifier proveMembershipNullifier
  rw [Bool.and_eq_true, verifyZKMembership_prove positive, verifyEqualExp_prove positive]
  exact and_iff_left ⟨rfl, rfl⟩

/-! ## Spends -/

/-- Over every run of an archive node: each member can be spent with its witness, under the one
nullifier of the member; a proof made with any exponent and any element is accepted exactly when
the element is a witness for the exponent, so for another prime it gives a root of the
generator, and for one it needs no member; and for two exponents with one nullifier their
difference is a multiple of the order of the nullifiers' generator. -/
theorem nullifier_run (positive : H.Positive) {actions : List Action} (primes : Primes actions) :
    (∀ p ∈ (run g actions).members, ∃ w, (run g actions).membershipWitness g p = .ok w ∧
      verifyMembershipNullifier H g (run g actions).acc
        (proveMembershipNullifier H g (run g actions).acc p w) = true) ∧
    (∀ p w, verifyMembershipNullifier H g (run g actions).acc
        (proveMembershipNullifier H g (run g actions).acc p w) = true ↔
      verifyMembership (run g actions).acc w p = true) ∧
    (∀ x w, 0 < x → Prime x → x ∉ (run g actions).members →
      verifyMembershipNullifier H g (run g actions).acc
        (proveMembershipNullifier H g (run g actions).acc x w) = true →
          bezoutRoot g (run g actions).product x w ^ x = g) ∧
    verifyMembershipNullifier H g (run g actions).acc
      (proveMembershipNullifier H g (run g actions).acc 1 (run g actions).acc) = true ∧
    ∀ p q v w, (proveMembershipNullifier H g (run g actions).acc p v).N =
        (proveMembershipNullifier H g (run g actions).acc q w).N →
      H.uGenerator ^ (p - q) = 1 := by
  have holds := Holds.run (g := g) primes
  generalize run g actions = a at holds
  refine ⟨fun p member => ?_, fun p w => ?_, fun x w large prime absent accepted => ?_, ?_,
    fun p q v w same => ?_⟩
  · refine ⟨_, holds.membershipWitness member, ?_⟩
    rw [verifyMembershipNullifier_prove positive]
    exact holds.witness_power member
  · rw [verifyMembershipNullifier_prove positive, verifyMembership, decide_eq_true_iff]
  · have opened : w ^ x = g ^ a.product :=
      ((verifyMembershipNullifier_prove positive _ _ _).mp accepted).trans holds.value
    exact bezoutRoot_power opened ((holds.gcd_iff large prime).mpr absent)
  · rw [verifyMembershipNullifier_prove positive, zpow_one]
  · have powers : H.uGenerator ^ p = H.uGenerator ^ q := same
    rw [zpow_sub, powers, mul_inv_cancel]

/-- The spend of the member that is left of two, among the integers. -/
theorem nullifier_run_of_three :
    let g : Multiplicative ℤ := .ofAdd 1
    let H : SpendHashes (Multiplicative ℤ) :=
      ⟨fun _ _ _ _ _ => 3, fun _ _ _ _ _ _ _ => 7, fun _ _ _ _ => 5, fun _ => 4, .ofAdd 11,
        .ofAdd 13⟩
    let actions : List Action := [.add 2, .add 3, .remove 2]
    ∃ w, (run g actions).membershipWitness g 3 = .ok w ∧
      verifyMembershipNullifier H g (run g actions).acc
        (proveMembershipNullifier H g (run g actions).acc 3 w) = true := by
  intro g H actions
  have positive : H.Positive :=
    ⟨fun _ _ _ _ _ => show (0 : ℤ) < 3 by decide, fun _ _ _ _ => show (0 : ℤ) < 5 by decide⟩
  refine (@nullifier_run _ _ H g _ positive _ ?_).1 3 ?_
  · intro p member
    have cases : p = 2 ∨ p = 3 := by simpa [actions] using member
    rcases cases with rfl | rfl
    · exact ⟨by decide, Int.prime_two⟩
    · exact ⟨by decide, Int.prime_three⟩
  · exact List.mem_singleton_self 3

end Obscura.Witnesses
