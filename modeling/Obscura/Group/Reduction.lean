import Mathlib.LinearAlgebra.Matrix.FixedDetMatrices
import Obscura.Group.ClassGroup

/-! # Reduction of forms

Two forms are properly equivalent if a substitution of determinant one takes one to the other.
Reduction stays in the class and ends by itself, and a class has one reduced form: every
substitution is made of turns and shifts, which the ideals of the forms follow.
-/

namespace Obscura.Group

open QuadraticForms MatrixGroups

/-- `Equal`: the coefficients agree. -/
def equal (f g : Form) : Bool := f.A == g.A && f.B == g.B && f.C == g.C

theorem equal_iff {f g : Form} : equal f g = true ↔ f = g := by
  obtain ⟨A, B, C⟩ := f
  obtain ⟨A', B', C'⟩ := g
  simp [equal, and_assoc]

/-- The form after a substitution. -/
def Form.act (f : Form) (M : SL(2, ℤ)) : Form where
  A := f.A * M.1 0 0 ^ 2 + f.B * M.1 0 0 * M.1 1 0 + f.C * M.1 1 0 ^ 2
  B := 2 * f.A * M.1 0 0 * M.1 0 1 + f.B * (M.1 0 0 * M.1 1 1 + M.1 0 1 * M.1 1 0) +
    2 * f.C * M.1 1 0 * M.1 1 1
  C := f.A * M.1 0 1 ^ 2 + f.B * M.1 0 1 * M.1 1 1 + f.C * M.1 1 1 ^ 2

/-- Some substitution of determinant one takes the first form to the second. -/
def ProperlyEquivalent (f g : Form) : Prop := ∃ M : SL(2, ℤ), g = f.act M

section Act

variable {n : ℤ} {f g h : Form}

theorem act_one (f : Form) : f.act 1 = f := by
  obtain ⟨A, B, C⟩ := f
  simp [Form.act]

theorem act_mul (f : Form) (M N : SL(2, ℤ)) : f.act (M * N) = (f.act M).act N := by
  have entry : ∀ i j, (M * N).1 i j = M.1 i 0 * N.1 0 j + M.1 i 1 * N.1 1 j := by
    intro i j
    rw [Matrix.SpecialLinearGroup.coe_mul, Matrix.mul_apply, Fin.sum_univ_two]
  simp only [Form.act, entry, Form.mk.injEq]
  refine ⟨?_, ?_, ?_⟩ <;> ring

theorem act_inv (f : Form) (M : SL(2, ℤ)) : (f.act M).act M⁻¹ = f := by
  rw [← act_mul, mul_inv_cancel, act_one]

theorem act_S (f : Form) : f.act ModularGroup.S = ⟨f.C, -f.B, f.A⟩ := by
  simp [Form.act, ModularGroup.coe_S]

/-- The shift. -/
theorem act_T_zpow (f : Form) (k : ℤ) : f.act (ModularGroup.T ^ k) =
    ⟨f.A, f.B + 2 * f.A * k, f.C + k * (f.B + f.A * k)⟩ := by
  simp only [Form.act, ModularGroup.coe_T_zpow, Matrix.of_apply, Matrix.cons_val',
    Matrix.cons_val_zero, Matrix.cons_val_one, Matrix.cons_val_fin_one, Form.mk.injEq]
  refine ⟨?_, ?_, ?_⟩ <;> ring

theorem ProperlyEquivalent.refl (f : Form) : ProperlyEquivalent f f := ⟨1, (act_one f).symm⟩

theorem ProperlyEquivalent.symm (proper : ProperlyEquivalent f g) : ProperlyEquivalent g f := by
  obtain ⟨M, rfl⟩ := proper
  exact ⟨M⁻¹, (act_inv f M).symm⟩

theorem ProperlyEquivalent.trans (first : ProperlyEquivalent f g)
    (second : ProperlyEquivalent g h) : ProperlyEquivalent f h := by
  obtain ⟨M, rfl⟩ := first
  obtain ⟨N, rfl⟩ := second
  exact ⟨M * N, (act_mul f M N).symm⟩

theorem det_eq (M : SL(2, ℤ)) : M.1 0 0 * M.1 1 1 - M.1 0 1 * M.1 1 0 = 1 := by
  rw [← Matrix.det_fin_two]
  exact M.2

/-- Substitutions keep forms positive definite. -/
theorem Positive.act (definite : 0 < n) (positive : Positive n f) (M : SL(2, ℤ)) :
    Positive n (f.act M) := by
  have det := det_eq M
  have disc := positive.disc
  have leading := positive.leading
  constructor
  · unfold Form.act
    dsimp only
    linear_combination (M.1 0 0 * M.1 1 1 - M.1 0 1 * M.1 1 0) ^ 2 * disc +
      (1 - 4 * n) * (M.1 0 0 * M.1 1 1 - M.1 0 1 * M.1 1 0 + 1) * det
  · have square : 4 * f.A * (f.act M).A =
        (2 * f.A * M.1 0 0 + f.B * M.1 1 0) ^ 2 + (4 * n - 1) * M.1 1 0 ^ 2 := by
      unfold Form.act
      dsimp only
      linear_combination -(M.1 1 0) ^ 2 * disc
    have nonneg : 0 < (2 * f.A * M.1 0 0 + f.B * M.1 1 0) ^ 2 + (4 * n - 1) * M.1 1 0 ^ 2 := by
      by_cases none : M.1 1 0 = 0
      · have other : M.1 0 0 ≠ 0 := by
          intro zero
          rw [none, zero] at det
          simp at det
        rw [none]
        have product : 2 * f.A * M.1 0 0 ≠ 0 := mul_ne_zero (by linarith) other
        have := sq_pos_of_ne_zero product
        simpa using this
      · have first := sq_nonneg (2 * f.A * M.1 0 0 + f.B * M.1 1 0)
        have second := sq_pos_of_ne_zero none
        have factor : 0 < 4 * n - 1 := by linarith
        have third := mul_pos factor second
        linarith
    rw [← square] at nonneg
    exact (mul_pos_iff_of_pos_left (by linarith)).mp nonneg

/-- A shift leaves the ideal alone. -/
theorem ideal_shift (positive : Positive n f) (k : ℤ) :
    (f.act (ModularGroup.T ^ k)).ideal n = f.ideal n := by
  obtain ⟨-, root⟩ := @Positive.of_closed n ⟨f.A, f.B + 2 * f.A * k, f.C + k * (f.B + f.A * k)⟩
    (f.root + f.A * k)
    (by change f.B + 2 * f.A * k = 2 * (f.root + f.A * k) + 1
        linear_combination positive.middle)
    (by change _ = f.A * (f.C + k * (f.B + f.A * k))
        linear_combination positive.closed - f.A * k * positive.middle) positive.leading
  rw [act_T_zpow, Form.ideal, root]
  exact formIdeal_shift n f.A f.root k

theorem ideal_act (definite : 0 < n) (M : SL(2, ℤ)) (positive : Positive n f) :
    Equivalent ((f.act M).ideal n) (f.ideal n) := by
  have generated : M ∈ Subgroup.closure {ModularGroup.S, ModularGroup.T} := by
    rw [SpecialLinearGroup.SL2Z_generators]
    exact Subgroup.mem_top M
  induction generated using Subgroup.closure_induction generalizing f with
  | mem M generator =>
    rcases generator with rfl | rfl
    · rw [act_S]
      exact (positive.turn definite).2
    · have shifted := ideal_shift positive 1
      rw [zpow_one] at shifted
      rw [shifted]
      exact Equivalent.refl _
  | one =>
    rw [act_one]
    exact Equivalent.refl _
  | mul M N _ _ first second =>
    rw [act_mul]
    exact (second (positive.act definite M)).trans (first positive)
  | inv M _ forward =>
    have back : (f.act M⁻¹).act M = f := by
      rw [← act_mul, inv_mul_cancel, act_one]
    have along := forward (positive.act definite M⁻¹)
    rw [back] at along
    exact along.symm

/-! ## Reduction by substitutions -/

theorem normalize_proper (positive : Positive n f) :
    ProperlyEquivalent f (normalize (1 - 4 * n) f) := by
  unfold normalize
  split_ifs with normal
  · exact ProperlyEquivalent.refl f
  · dsimp only
    generalize floorDiv (f.A - f.B) (2 * f.A) = k
    have leading := positive.leading
    have last : (f.B + 2 * f.A * k) * (f.B + 2 * f.A * k) - (1 - 4 * n) =
        4 * f.A * (f.C + k * (f.B + f.A * k)) := by
      linear_combination positive.disc
    refine ⟨ModularGroup.T ^ k, ?_⟩
    rw [act_T_zpow, last, Int.mul_ediv_cancel_left _ (by linarith)]

theorem reduceLoop_proper (definite : 0 < n) (rounds : Nat) (positive : Positive n f) :
    ProperlyEquivalent f (reduceLoop (1 - 4 * n) rounds f) := by
  induction rounds generalizing f with
  | zero => exact ProperlyEquivalent.refl f
  | succ rounds ih =>
    have turned := (positive.turn definite).1
    have turn : ProperlyEquivalent f ⟨f.C, -f.B, f.A⟩ := ⟨ModularGroup.S, (act_S f).symm⟩
    rw [reduceLoop]
    split_ifs with below same sign
    · exact ProperlyEquivalent.refl f
    · exact ProperlyEquivalent.refl f
    · rwa [← same] at turn ⊢
    · exact (turn.trans (normalize_proper turned)).trans (ih turned.normalize.1)

theorem reduceLoop_more (definite : 0 < n) (rounds extra : Nat) (positive : Positive n f)
    (enough : f.A ≤ rounds) :
    reduceLoop (1 - 4 * n) (rounds + extra) f = reduceLoop (1 - 4 * n) rounds f := by
  induction rounds generalizing f with
  | zero => exact absurd positive.leading (by simpa using enough)
  | succ rounds ih =>
    rw [Nat.succ_add, reduceLoop, reduceLoop]
    split_ifs with below same sign
    · rfl
    · rfl
    · rfl
    · refine ih (positive.turn definite).1.normalize.1 ?_
      rw [normalize_A]
      change f.C ≤ rounds
      push_cast at enough
      omega

/-- **Canonical reduction.** The reduction of a positive definite form ends by itself with a
reduced form of the same discriminant that is properly equivalent to it, and two reductions have
equal coefficients exactly if the forms are properly equivalent. -/
theorem reduce_canonical {D : ℤ} (negative : D < 0) (residue : D % 8 = 1) {f g : Form}
    (disc : f.B ^ 2 - 4 * f.A * f.C = D) (leading : 0 < f.A)
    (disc' : g.B ^ 2 - 4 * g.A * g.C = D) (leading' : 0 < g.A) :
    (∀ extra, reduceLoop D (f.A.toNat + extra) (normalize D f) = reduce D f) ∧
    ((reduce D f).B ^ 2 - 4 * (reduce D f).A * (reduce D f).C = D ∧
      ProperlyEquivalent f (reduce D f) ∧
      -(reduce D f).A < (reduce D f).B ∧ (reduce D f).B ≤ (reduce D f).A ∧
      (reduce D f).A ≤ (reduce D f).C ∧ ((reduce D f).A = (reduce D f).C → 0 ≤ (reduce D f).B)) ∧
    (equal (reduce D f) (reduce D g) = true ↔ ProperlyEquivalent f g) := by
  obtain ⟨n, definite, rfl⟩ : ∃ n : ℤ, 0 < n ∧ D = 1 - 4 * n := ⟨(1 - D) / 4, by omega, by omega⟩
  have positive : Positive n f := ⟨disc, leading⟩
  have positive' : Positive n g := ⟨disc', leading'⟩
  have spec : ∀ h : Form, Positive n h → ReducedForm n (reduce (1 - 4 * n) h) ∧
      ProperlyEquivalent h (reduce (1 - 4 * n) h) := fun h held =>
    ⟨(reduce_spec definite held).1,
      (normalize_proper held).trans (reduceLoop_proper definite _ held.normalize.1)⟩
  obtain ⟨reduced, proper⟩ := spec f positive
  obtain ⟨reduced', proper'⟩ := spec g positive'
  refine ⟨fun extra => ?_, ⟨reduced.positive.disc, proper, reduced.shape.above,
    reduced.shape.below, reduced.shape.le, reduced.shape.edge⟩, ?_⟩
  · refine reduceLoop_more definite _ extra positive.normalize.1 ?_
    rw [normalize_A]
    exact Int.self_le_toNat f.A
  · rw [equal_iff]
    constructor
    · intro same
      rw [← same] at proper'
      exact proper.trans proper'.symm
    · intro related
      obtain ⟨M, carried⟩ := (proper.symm.trans related).trans proper'
      refine reduced.eq_of_equivalent definite reduced' ?_
      rw [carried]
      exact (ideal_act definite M reduced.positive).symm

/-- Two forms of the discriminant `-23` in one class. -/
theorem reduce_canonical_23 : equal (reduce (-23) ⟨3, 7, 6⟩) (reduce (-23) ⟨3, 1, 2⟩) = true ↔
    ProperlyEquivalent ⟨3, 7, 6⟩ ⟨3, 1, 2⟩ :=
  (@reduce_canonical (-23) (by decide) (by decide) ⟨3, 7, 6⟩ ⟨3, 1, 2⟩ (by decide) (by decide)
    (by decide) (by decide)).2.2

end Act

end Obscura.Group
