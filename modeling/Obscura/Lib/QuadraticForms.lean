import Mathlib.Algebra.QuadraticAlgebra.Basic
import Mathlib.RingTheory.Ideal.Operations
import Mathlib.Tactic.LinearCombination
import Mathlib.Tactic.Linarith

/-! # Quadratic forms and ideals

A positive definite form of discriminant `1 - 4n` with the coefficients `a`, `2m + 1`, `c` is
the norm form of an ideal of the quadratic order of that discriminant: the ideal that `a` and
the root `m + ω` generate. Forms that one another's substitutions of determinant one produce
have equivalent ideals, equivalent ideals have such forms, and a class of ideals holds one
reduced form at most (`Reduced.unique`). The product of two of the ideals is, up to an integer,
the ideal of the form that the composition of Dirichlet gives (`formIdeal_mul`), so what holds
of products of ideals holds of compositions of forms.
-/

namespace QuadraticForms

/-- The quadratic order of discriminant `1 - 4n`. -/
abbrev Order (n : ℤ) : Type := QuadraticAlgebra ℤ (-n) 1

/-- Ideals of the order, as a type of their own name. -/
abbrev OrderIdeal (n : ℤ) : Type := Ideal (Order n)

/-- The multiples of an integer. -/
def multiples (n e : ℤ) : OrderIdeal n := Ideal.span {⟨e, 0⟩}

/-- The ideal of the form with leading coefficient `a` and middle coefficient `2m + 1`. -/
def formIdeal (n a m : ℤ) : OrderIdeal n := Ideal.span {⟨a, 0⟩, ⟨m, 1⟩}

/-- What a form takes at a pair of integers. -/
def value (a b c x y : ℤ) : ℤ := a * x ^ 2 + b * x * y + c * y ^ 2

/-- Some multiples of the ideals agree. -/
def Equivalent {n : ℤ} (I J : Ideal (Order n)) : Prop :=
  ∃ α β : Order n, α.norm ≠ 0 ∧ β.norm ≠ 0 ∧ Ideal.span {α} * I = Ideal.span {β} * J

/-! ## Equivalence of ideals -/

section Equivalence

variable {n : ℤ} {I I' J J' K : Ideal (Order n)}

namespace Equivalent

theorem refl (I : Ideal (Order n)) : Equivalent I I :=
  ⟨1, 1, by simp, by simp, rfl⟩

theorem symm (equivalent : Equivalent I J) : Equivalent J I := by
  obtain ⟨α, β, first, second, same⟩ := equivalent
  exact ⟨β, α, second, first, same.symm⟩

/-- The classes are transitive. -/
theorem trans (left : Equivalent I J) (right : Equivalent J K) : Equivalent I K := by
  obtain ⟨α, β, α_ne, β_ne, same⟩ := left
  obtain ⟨γ, δ, γ_ne, δ_ne, same'⟩ := right
  refine ⟨γ * α, β * δ, ?_, ?_, ?_⟩
  · rw [map_mul]
    exact mul_ne_zero γ_ne α_ne
  · rw [map_mul]
    exact mul_ne_zero β_ne δ_ne
  · calc Ideal.span {γ * α} * I = Ideal.span {γ} * (Ideal.span {α} * I) := by
          rw [← Ideal.span_singleton_mul_span_singleton, mul_assoc]
      _ = Ideal.span {β} * (Ideal.span {γ} * J) := by rw [same, mul_left_comm]
      _ = Ideal.span {β * δ} * K := by
          rw [same', ← Ideal.span_singleton_mul_span_singleton, mul_assoc]

theorem mul (left : Equivalent I I') (right : Equivalent J J') :
    Equivalent (I * J) (I' * J') := by
  obtain ⟨α, β, α_ne, β_ne, same⟩ := left
  obtain ⟨γ, δ, γ_ne, δ_ne, same'⟩ := right
  refine ⟨α * γ, β * δ, ?_, ?_, ?_⟩
  · rw [map_mul]
    exact mul_ne_zero α_ne γ_ne
  · rw [map_mul]
    exact mul_ne_zero β_ne δ_ne
  · rw [← Ideal.span_singleton_mul_span_singleton, ← Ideal.span_singleton_mul_span_singleton,
      mul_mul_mul_comm, same, same', mul_mul_mul_comm]

theorem of_multiples {e : ℤ} (nonzero : e ≠ 0) (same : I = multiples n e * J) :
    Equivalent I J := by
  refine ⟨1, ⟨e, 0⟩, by simp, ?_, ?_⟩
  · simpa [QuadraticAlgebra.norm_def] using nonzero
  · rw [Ideal.span_singleton_one, Ideal.top_mul, same, multiples]

theorem mul_unit (unit : Equivalent J ⊤) : Equivalent (I * J) I := by
  have expanded := (Equivalent.refl I).mul unit
  rwa [Ideal.mul_top] at expanded

end Equivalent

end Equivalence

/-! ## Elements of the ideal of a form -/

section Elements

variable {n a c m : ℤ}

theorem norm_mk (x y : ℤ) : (⟨x, y⟩ : Order n).norm = x ^ 2 + x * y + n * y ^ 2 := by
  rw [QuadraticAlgebra.norm_def]
  ring

theorem norm_nonneg (definite : 0 < n) (z : Order n) : 0 ≤ z.norm := by
  have expand : 4 * z.norm = (2 * z.re + z.im) ^ 2 + (4 * n - 1) * z.im ^ 2 := by
    rw [QuadraticAlgebra.norm_def]
    ring
  have squares : 0 ≤ (2 * z.re + z.im) ^ 2 + (4 * n - 1) * z.im ^ 2 :=
    add_nonneg (sq_nonneg _) (mul_nonneg (by linarith) (sq_nonneg _))
  linarith

theorem first_mem : (⟨a, 0⟩ : Order n) ∈ formIdeal n a m :=
  Ideal.subset_span (Set.mem_insert _ _)

theorem root_mem : (⟨m, 1⟩ : Order n) ∈ formIdeal n a m :=
  Ideal.subset_span (Set.mem_insert_of_mem _ rfl)

theorem exists_coordinates (closed : m ^ 2 + m + n = a * c) {z : Order n}
    (member : z ∈ formIdeal n a m) : ∃ p q : ℤ, z = ⟨p * a + q * m, q⟩ := by
  obtain ⟨u, v, rfl⟩ := Ideal.mem_span_pair.mp member
  refine ⟨u.re - m * u.im - c * v.im, u.im * a + v.re + (m + 1) * v.im, ?_⟩
  ext
  · simp only [QuadraticAlgebra.re_add, QuadraticAlgebra.re_mul]
    linear_combination (-v.im) * closed
  · simp only [QuadraticAlgebra.im_add, QuadraticAlgebra.im_mul]
    ring

theorem norm_coordinates (closed : m ^ 2 + m + n = a * c) (p q : ℤ) :
    (⟨p * a + q * m, q⟩ : Order n).norm = a * value a (2 * m + 1) c p q := by
  rw [norm_mk, value]
  linear_combination q ^ 2 * closed

/-- The oriented area of two elements. -/
def wedge (z w : Order n) : ℤ := z.re * w.im - z.im * w.re

theorem wedge_mul (γ z w : Order n) : wedge (γ * z) (γ * w) = γ.norm * wedge z w := by
  simp only [wedge, QuadraticAlgebra.norm_def, QuadraticAlgebra.re_mul, QuadraticAlgebra.im_mul]
  ring

end Elements

/-! ## Reduced forms -/

/-- A reduced positive definite form. -/
structure Reduced (a b c : ℤ) : Prop where
  positive : 0 < a
  above : -a < b
  below : b ≤ a
  le : a ≤ c
  edge : a = c → 0 ≤ b

section Reduced

variable {a b c a' b' c' : ℤ}

theorem Reduced.last_le (reduced : Reduced a b c) (x : ℤ) {y : ℤ} (off : y ≠ 0) :
    c ≤ value a b c x y := by
  obtain ⟨positive, above, below, le, -⟩ := reduced
  have one : 1 ≤ |y| := Int.one_le_abs off
  have last_pos : 0 < c := positive.trans_le le
  have width : |b| ≤ a := abs_le.mpr ⟨above.le, below⟩
  have middle : -(a * (|x| * |y|)) ≤ b * x * y := by
    have bound : |b * x * y| ≤ a * (|x| * |y|) := by
      rw [abs_mul, abs_mul, mul_assoc]
      exact mul_le_mul_of_nonneg_right width (mul_nonneg (abs_nonneg x) (abs_nonneg y))
    linarith [neg_abs_le (b * x * y)]
  have expand : value a b c x y = a * |x| ^ 2 + b * x * y + c * |y| ^ 2 := by
    rw [value, sq_abs, sq_abs]
  have size := abs_nonneg x
  rw [expand]
  rcases le_or_gt |y| |x| with wide | tall
  · -- the first two terms do not cancel
    have first : 0 ≤ a * (|x| * (|x| - |y|)) :=
      mul_nonneg positive.le (mul_nonneg size (by linarith))
    have last : c ≤ c * |y| ^ 2 := le_mul_of_one_le_right last_pos.le (one_le_pow₀ one)
    nlinarith
  · have first : 0 ≤ a * |x| ^ 2 := mul_nonneg positive.le (sq_nonneg _)
    have gap : 1 ≤ |y| - |x| := by linarith [Int.add_one_le_iff.mpr tall]
    have last : c ≤ c * (|y| * (|y| - |x|)) :=
      le_mul_of_one_le_right last_pos.le (one_le_mul_of_one_le_of_one_le one gap)
    have traded : a * (|x| * |y|) ≤ c * (|x| * |y|) :=
      mul_le_mul_of_nonneg_right le (mul_nonneg size (by linarith))
    nlinarith

/-- A substitution with integer coefficients that turns the second form into the first. -/
structure Substitution (a b c a' b' c' : ℤ) where
  p : ℤ
  q : ℤ
  r : ℤ
  s : ℤ
  det : p * s - q * r = 1
  values : ∀ x y, value a b c x y = value a' b' c' (p * x + r * y) (q * x + s * y)

namespace Substitution

variable (subst : Substitution a b c a' b' c')

theorem first : a = value a' b' c' subst.p subst.q := by
  have taken := subst.values 1 0
  simpa [value] using taken

theorem eq_of_axis (left : Reduced a b c) (right : Reduced a' b' c')
    (disc : b ^ 2 - 4 * a * c = b' ^ 2 - 4 * a' * c') (axis : subst.q = 0) :
    a = a' ∧ b = b' ∧ c = c' := by
  have det := subst.det
  rw [axis, zero_mul, sub_zero] at det
  have leading : a = a' := by
    have taken := subst.first
    rw [axis, value] at taken
    have square : subst.p ^ 2 = 1 := by
      rcases Int.eq_one_or_neg_one_of_mul_eq_one det with one | one <;> rw [one] <;> norm_num
    rw [square] at taken
    linarith
  subst leading
  have shift : b = b' + 2 * a * (subst.p * subst.r) := by
    have both := subst.values 1 1
    have taken := subst.first
    have other := subst.values 0 1
    simp only [value, axis] at both taken other
    linear_combination both - taken - other + b' * det
  have same : subst.p * subst.r = 0 := by
    have := left.above
    have := left.below
    have := right.above
    have := right.below
    have := left.positive
    nlinarith
  rw [same, mul_zero, add_zero] at shift
  subst shift
  have scaled : a * c = a * c' := by linarith
  exact ⟨rfl, rfl, mul_left_cancel₀ left.positive.ne' scaled⟩

theorem edge_of_off (right : Reduced a' b' c') (le : a ≤ a')
    (off : subst.q ≠ 0) : c' = a ∧ a' = a := by
  have last := right.last_le subst.p off
  rw [← subst.first] at last
  have := right.le
  constructor <;> linarith

include subst in
theorem first_le (right : Reduced a' b' c') : a' ≤ a := by
  by_cases axis : subst.q = 0
  · have det := subst.det
    rw [axis, zero_mul, sub_zero] at det
    have taken := subst.first
    have square : subst.p ^ 2 = 1 := by
      rcases Int.eq_one_or_neg_one_of_mul_eq_one det with one | one <;> rw [one] <;> norm_num
    rw [axis, value, square] at taken
    linarith
  · have last := right.last_le subst.p axis
    rw [← subst.first] at last
    exact right.le.trans last

end Substitution

theorem Reduced.unique (left : Reduced a b c) (right : Reduced a' b' c')
    (disc : b ^ 2 - 4 * a * c = b' ^ 2 - 4 * a' * c') (there : Substitution a b c a' b' c')
    (back : Substitution a' b' c' a b c) : a = a' ∧ b = b' ∧ c = c' := by
  by_cases axis : there.q = 0
  · exact there.eq_of_axis left right disc axis
  · by_cases axis' : back.q = 0
    · obtain ⟨first, second, third⟩ := back.eq_of_axis right left disc.symm axis'
      exact ⟨first.symm, second.symm, third.symm⟩
    · have leading : a = a' := le_antisymm (back.first_le left) (there.first_le right)
      obtain ⟨last', -⟩ := there.edge_of_off right leading.le axis
      obtain ⟨last, -⟩ := back.edge_of_off left leading.ge axis'
      have nonneg := left.edge (leading.trans last.symm)
      have nonneg' := right.edge (leading.symm.trans last'.symm)
      have squares : b ^ 2 = b' ^ 2 := by
        rw [last, last'] at disc
        rw [leading] at disc
        linarith
      exact ⟨leading, (sq_eq_sq₀ nonneg nonneg').mp squares, by rw [last, last', leading]⟩

end Reduced

/-! ## Equivalent ideals -/

section Transforms

variable {n a c m a' c' m' : ℤ} {α β : Order n}

/-- One inclusion gives a substitution up to its determinant. -/
theorem exists_matrix (closed : m ^ 2 + m + n = a * c) (closed' : m' ^ 2 + m' + n = a' * c')
    (within : Ideal.span {α} * formIdeal n a m ≤ Ideal.span {β} * formIdeal n a' m') :
    ∃ p q r s : ℤ, α.norm * a = β.norm * a' * (p * s - q * r) ∧
      ∀ x y, α.norm * a * value a (2 * m + 1) c x y =
        β.norm * a' * value a' (2 * m' + 1) c' (p * x + r * y) (q * x + s * y) := by
  obtain ⟨z, member, first⟩ := Ideal.mem_span_singleton_mul.mp
    (within (Ideal.mul_mem_mul (Ideal.mem_span_singleton_self α) first_mem))
  obtain ⟨w, member', root⟩ := Ideal.mem_span_singleton_mul.mp
    (within (Ideal.mul_mem_mul (Ideal.mem_span_singleton_self α) root_mem))
  obtain ⟨p, q, rfl⟩ := exists_coordinates closed' member
  obtain ⟨r, s, rfl⟩ := exists_coordinates closed' member'
  refine ⟨p, q, r, s, ?_, fun x y => ?_⟩
  · have area : wedge (α * ⟨a, 0⟩) (α * ⟨m, 1⟩) = α.norm * a := by
      rw [wedge_mul, wedge]
      ring
    have area' : wedge (β * ⟨p * a' + q * m', q⟩) (β * ⟨r * a' + s * m', s⟩) =
        β.norm * (a' * (p * s - q * r)) := by
      rw [wedge_mul, wedge]
      ring
    rw [← area, ← first, ← root, area', mul_assoc]
  · have combined : α * ⟨x * a + y * m, y⟩ =
        β * (⟨(p * x + r * y) * a' + (q * x + s * y) * m', q * x + s * y⟩ : Order n) := by
      have split : (⟨x * a + y * m, y⟩ : Order n) =
          ⟨x, 0⟩ * ⟨a, 0⟩ + ⟨y, 0⟩ * ⟨m, 1⟩ := by
        ext <;> simp
      have split' : (⟨(p * x + r * y) * a' + (q * x + s * y) * m', q * x + s * y⟩ : Order n) =
          ⟨x, 0⟩ * ⟨p * a' + q * m', q⟩ + ⟨y, 0⟩ * ⟨r * a' + s * m', s⟩ := by
        ext <;> simp <;> ring
      rw [split, split', mul_add, mul_add, mul_left_comm α, mul_left_comm α, ← first, ← root,
        mul_left_comm β, mul_left_comm β]
    have norms := congrArg QuadraticAlgebra.norm combined
    rw [map_mul, map_mul, norm_coordinates closed, norm_coordinates closed'] at norms
    rw [mul_assoc, norms, mul_assoc]

theorem Equivalent.substitution (definite : 0 < n) (closed : m ^ 2 + m + n = a * c)
    (closed' : m' ^ 2 + m' + n = a' * c') (positive : 0 < a) (positive' : 0 < a')
    (equivalent : Equivalent (formIdeal n a m) (formIdeal n a' m')) :
    Nonempty (Substitution a (2 * m + 1) c a' (2 * m' + 1) c') := by
  obtain ⟨α, β, α_ne, β_ne, same⟩ := equivalent
  obtain ⟨p, q, r, s, area, values⟩ := exists_matrix closed closed' same.le
  obtain ⟨p', q', r', s', area', -⟩ := exists_matrix closed' closed same.ge
  have α_pos : 0 < α.norm := lt_of_le_of_ne (norm_nonneg definite α) α_ne.symm
  have β_pos : 0 < β.norm := lt_of_le_of_ne (norm_nonneg definite β) β_ne.symm
  have size : 0 < α.norm * a := mul_pos α_pos positive
  have size' : 0 < β.norm * a' := mul_pos β_pos positive'
  have product : (p * s - q * r) * (p' * s' - q' * r') = 1 := by
    have scaled : α.norm * a * ((p * s - q * r) * (p' * s' - q' * r')) = α.norm * a * 1 := by
      linear_combination (-1 : ℤ) * area + -(p * s - q * r) * area'
    exact mul_left_cancel₀ size.ne' scaled
  have det : p * s - q * r = 1 := by
    have sign : 0 < p * s - q * r := by
      rw [area] at size
      exact (mul_pos_iff_of_pos_left size').mp size
    rcases Int.eq_one_or_neg_one_of_mul_eq_one product with one | one
    · exact one
    · rw [one] at sign
      exact absurd sign (by norm_num)
  rw [det, mul_one] at area
  refine ⟨⟨p, q, r, s, det, fun x y => ?_⟩⟩
  have taken := values x y
  rw [area] at taken
  exact mul_left_cancel₀ size'.ne' taken

theorem Equivalent.reduced_eq (definite : 0 < n) (closed : m ^ 2 + m + n = a * c)
    (closed' : m' ^ 2 + m' + n = a' * c') (left : Reduced a (2 * m + 1) c)
    (right : Reduced a' (2 * m' + 1) c')
    (equivalent : Equivalent (formIdeal n a m) (formIdeal n a' m')) :
    a = a' ∧ m = m' ∧ c = c' := by
  obtain ⟨there⟩ := equivalent.substitution definite closed closed' left.positive right.positive
  obtain ⟨back⟩ :=
    equivalent.symm.substitution definite closed' closed right.positive left.positive
  obtain ⟨first, second, third⟩ := left.unique right
    (by linear_combination 4 * closed - 4 * closed') there back
  exact ⟨first, by linarith, third⟩

end Transforms

/-! ## Operations on forms -/

section Operations

variable {n a c m : ℤ}

theorem formIdeal_shift (n a m k : ℤ) : formIdeal n a (m + a * k) = formIdeal n a m := by
  have grows (m k : ℤ) : formIdeal n a (m + a * k) ≤ formIdeal n a m := by
    refine Ideal.span_le.mpr (Set.insert_subset first_mem (Set.singleton_subset_iff.mpr ?_))
    have split : (⟨m + a * k, 1⟩ : Order n) = ⟨m, 1⟩ + ⟨k, 0⟩ * ⟨a, 0⟩ := by
      ext <;> simp [mul_comm]
    rw [split]
    exact add_mem root_mem (Ideal.mul_mem_left _ _ first_mem)
  refine le_antisymm (grows m k) ?_
  have back := grows (m + a * k) (-k)
  rwa [mul_neg, add_neg_cancel_right] at back

theorem span_mul_pair (x y z : Order n) :
    Ideal.span {x} * Ideal.span {y, z} = Ideal.span {x * y, x * z} := by
  rw [Ideal.span_mul_span', Set.singleton_mul, Set.image_pair]

/-- Turning a form over. -/
theorem formIdeal_turn (closed : m ^ 2 + m + n = a * c) (nonzero : a ≠ 0) (nonzero' : c ≠ 0) :
    Equivalent (formIdeal n a m) (formIdeal n c (-m - 1)) := by
  refine ⟨⟨-m - 1, 1⟩, ⟨a, 0⟩, ?_, ?_, ?_⟩
  · have norm : (⟨-m - 1, 1⟩ : Order n).norm = a * c := by
      rw [norm_mk, ← closed]
      ring
    rw [norm]
    exact mul_ne_zero nonzero nonzero'
  · rw [norm_mk]
    simpa using nonzero
  · have product : (⟨-m - 1, 1⟩ : Order n) * ⟨m, 1⟩ = -(⟨a, 0⟩ * ⟨c, 0⟩) := by
      ext
      · simp
        linear_combination -closed
      · simp
        ring
    rw [formIdeal, formIdeal, span_mul_pair, span_mul_pair, product, mul_comm _ (⟨a, 0⟩ : Order n)]
    apply le_antisymm
    · refine Ideal.span_le.mpr (Set.insert_subset ?_ (Set.singleton_subset_iff.mpr ?_))
      · exact Ideal.subset_span (Set.mem_insert_of_mem _ rfl)
      · exact neg_mem (Ideal.subset_span (Set.mem_insert _ _))
    · refine Ideal.span_le.mpr (Set.insert_subset ?_ (Set.singleton_subset_iff.mpr ?_))
      · exact neg_mem_iff.mp (Ideal.subset_span (Set.mem_insert_of_mem _ rfl))
      · exact Ideal.subset_span (Set.mem_insert _ _)

theorem formIdeal_one (n m : ℤ) : formIdeal n 1 m = ⊤ :=
  (Ideal.eq_top_iff_one _).mpr first_mem

/-- The product with the opposite form is principal when the form is primitive. -/
theorem formIdeal_opposite (closed : m ^ 2 + m + n = a * c) {u v w : ℤ}
    (primitive : u * a + v * (2 * m + 1) + w * c = 1) :
    formIdeal n a m * formIdeal n a (-m - 1) = multiples n a * ⊤ := by
  have product : (⟨m, 1⟩ : Order n) * ⟨-m - 1, 1⟩ = ⟨a, 0⟩ * ⟨-c, 0⟩ := by
    ext
    · simp
      linear_combination -closed
    · simp
      ring
  rw [multiples, Ideal.mul_top, formIdeal, formIdeal, Ideal.span_pair_mul_span_pair, product]
  apply le_antisymm
  · refine Ideal.span_le.mpr ?_
    rintro z (rfl | rfl | rfl | rfl)
    · exact Ideal.mul_mem_right _ _ (Ideal.mem_span_singleton_self _)
    · exact Ideal.mul_mem_right _ _ (Ideal.mem_span_singleton_self _)
    · exact Ideal.mul_mem_left _ _ (Ideal.mem_span_singleton_self _)
    · exact Ideal.mul_mem_right _ _ (Ideal.mem_span_singleton_self _)
  · refine (Ideal.span_singleton_le_iff_mem _).mpr ?_
    set I : Ideal (Order n) := Ideal.span {⟨a, 0⟩ * ⟨a, 0⟩, ⟨a, 0⟩ * ⟨-m - 1, 1⟩, ⟨m, 1⟩ * ⟨a, 0⟩,
      ⟨a, 0⟩ * ⟨-c, 0⟩} with generated
    have square : (⟨a, 0⟩ * ⟨a, 0⟩ : Order n) ∈ I := Ideal.subset_span (by simp)
    have opposite : (⟨a, 0⟩ * ⟨-m - 1, 1⟩ : Order n) ∈ I := Ideal.subset_span (by simp)
    have own : (⟨m, 1⟩ * ⟨a, 0⟩ : Order n) ∈ I := Ideal.subset_span (by simp)
    have last : (⟨a, 0⟩ * ⟨-c, 0⟩ : Order n) ∈ I := Ideal.subset_span (by simp)
    have split : (⟨a, 0⟩ : Order n) = ⟨u, 0⟩ * (⟨a, 0⟩ * ⟨a, 0⟩) +
        ⟨v, 0⟩ * (⟨m, 1⟩ * ⟨a, 0⟩ - ⟨a, 0⟩ * ⟨-m - 1, 1⟩) + ⟨-w, 0⟩ * (⟨a, 0⟩ * ⟨-c, 0⟩) := by
      ext
      · simp
        linear_combination -a * primitive
      · simp
    rw [split]
    exact add_mem (add_mem (Ideal.mul_mem_left _ _ square)
      (Ideal.mul_mem_left _ _ (sub_mem own opposite))) (Ideal.mul_mem_left _ _ last)

theorem crossed_eq {e v₁ v₂ s m₁ m₂ c₁ c₂ : ℤ} (closed₁ : m₁ ^ 2 + m₁ + n = e * v₁ * c₁)
    (closed₂ : m₂ ^ 2 + m₂ + n = e * v₂ * c₂) (half : m₁ + m₂ + 1 = e * s) (nonzero : e ≠ 0) :
    v₁ * c₁ - v₂ * c₂ = (m₁ - m₂) * s := by
  apply mul_left_cancel₀ nonzero
  linear_combination closed₂ - closed₁ + (m₁ - m₂) * half

/-- **Composition.** The product of the ideals of two forms is `e` times the ideal of the
composed form, where `e` is the common divisor of the leading coefficients `e * v₁`, `e * v₂`
and of the half sum `e * s` of the middle ones. -/
theorem formIdeal_mul {e v₁ v₂ s m₁ m₂ c₁ c₂ x y X Y k u₁ u₂ u₃ u₄ : ℤ}
    (closed₁ : m₁ ^ 2 + m₁ + n = e * v₁ * c₁) (closed₂ : m₂ ^ 2 + m₂ + n = e * v₂ * c₂)
    (half : m₁ + m₂ + 1 = e * s) (bezout : X * (x * v₁ + y * v₂) + Y * s = 1)
    (nonzero : e ≠ 0) {t : ℤ} (shift : t = (m₁ - m₂) * y * X - c₂ * Y + k * v₁)
    (primitive : u₁ * e + u₂ * (m₁ - m₂) + u₃ * c₁ + u₄ * c₂ = 1) :
    formIdeal n (e * v₁) m₁ * formIdeal n (e * v₂) m₂ =
      multiples n e * formIdeal n (v₁ * v₂) (m₂ + v₂ * t) := by
  have crossed := crossed_eq closed₁ closed₂ half nonzero
  rw [multiples, formIdeal, formIdeal, formIdeal, span_mul_pair, Ideal.span_pair_mul_span_pair]
  set A : Order n := ⟨e, 0⟩ * ⟨v₁ * v₂, 0⟩ with outer
  set T : Order n := ⟨e, 0⟩ * ⟨m₂ + v₂ * t, 1⟩ with root
  apply le_antisymm
  · have outer_mem : A ∈ Ideal.span {A, T} := Ideal.subset_span (by simp)
    have root_mem : T ∈ Ideal.span {A, T} := Ideal.subset_span (by simp)
    have combine (u v : ℤ) : ⟨u, 0⟩ * T + ⟨v, 0⟩ * A ∈ Ideal.span {A, T} :=
      add_mem (Ideal.mul_mem_left _ _ root_mem) (Ideal.mul_mem_left _ _ outer_mem)
    have first : (⟨e * v₁, 0⟩ * ⟨e * v₂, 0⟩ : Order n) = ⟨0, 0⟩ * T + ⟨e, 0⟩ * A := by
      ext
      · simp [root, outer]
        ring
      · simp [root, outer]
    have second : (⟨e * v₁, 0⟩ * ⟨m₂, 1⟩ : Order n) = ⟨v₁, 0⟩ * T + ⟨-t, 0⟩ * A := by
      ext
      · simp [root, outer]
        ring
      · simp [root, outer]
        ring
    have third : (⟨m₁, 1⟩ * ⟨e * v₂, 0⟩ : Order n) =
        ⟨v₂, 0⟩ * T + ⟨Y * c₁ + (m₁ - m₂) * X * x - k * v₂, 0⟩ * A := by
      ext
      · simp [root, outer, shift]
        linear_combination (-e * v₂ * (m₁ - m₂)) * bezout - e * v₂ * Y * crossed
      · simp [root, outer]
        ring
    have fourth : (⟨m₁, 1⟩ * ⟨m₂, 1⟩ : Order n) =
        ⟨s, 0⟩ * T + ⟨-(X * y * c₁ + c₂ * X * x + s * k), 0⟩ * A := by
      ext
      · simp [root, outer, shift]
        linear_combination m₂ * half - closed₂ + e * v₂ * c₂ * bezout + e * v₂ * X * y * crossed
      · simp [root, outer]
        linear_combination half
    refine Ideal.span_le.mpr ?_
    rintro z (rfl | rfl | rfl | rfl)
    · rw [first]
      exact combine _ _
    · rw [second]
      exact combine _ _
    · rw [third]
      exact combine _ _
    · rw [fourth]
      exact combine _ _
  · set I : Ideal (Order n) := Ideal.span {⟨e * v₁, 0⟩ * ⟨e * v₂, 0⟩, ⟨e * v₁, 0⟩ * ⟨m₂, 1⟩,
      ⟨m₁, 1⟩ * ⟨e * v₂, 0⟩, ⟨m₁, 1⟩ * ⟨m₂, 1⟩} with generated
    have first : (⟨e * v₁, 0⟩ * ⟨e * v₂, 0⟩ : Order n) ∈ I := Ideal.subset_span (by simp)
    have second : (⟨e * v₁, 0⟩ * ⟨m₂, 1⟩ : Order n) ∈ I := Ideal.subset_span (by simp)
    have third : (⟨m₁, 1⟩ * ⟨e * v₂, 0⟩ : Order n) ∈ I := Ideal.subset_span (by simp)
    have fourth : (⟨m₁, 1⟩ * ⟨m₂, 1⟩ : Order n) ∈ I := Ideal.subset_span (by simp)
    have scaled (u : Order n) {z : Order n} (member : z ∈ I) : u * z ∈ I :=
      Ideal.mul_mem_left I u member
    have outer_mem : A ∈ I := by
      have split : A = ⟨u₁, 0⟩ * (⟨e * v₁, 0⟩ * ⟨e * v₂, 0⟩) +
          ⟨u₂, 0⟩ * (⟨v₁, 0⟩ * (⟨m₁, 1⟩ * ⟨e * v₂, 0⟩) - ⟨v₂, 0⟩ * (⟨e * v₁, 0⟩ * ⟨m₂, 1⟩)) +
          ⟨u₃, 0⟩ * (⟨s, 0⟩ * (⟨m₁, 1⟩ * ⟨e * v₂, 0⟩) - ⟨v₂, 0⟩ * (⟨m₁, 1⟩ * ⟨m₂, 1⟩)) +
          ⟨u₄, 0⟩ * (⟨s, 0⟩ * (⟨e * v₁, 0⟩ * ⟨m₂, 1⟩) - ⟨v₁, 0⟩ * (⟨m₁, 1⟩ * ⟨m₂, 1⟩)) := by
        ext
        · simp [outer]
          linear_combination (-e * v₁ * v₂) * primitive - u₃ * v₂ * closed₁ +
            u₃ * v₂ * m₁ * half - u₄ * v₁ * closed₂ + u₄ * v₁ * m₂ * half
        · simp [outer]
          linear_combination (u₃ * v₂ + u₄ * v₁) * half
      rw [split]
      refine add_mem (add_mem (add_mem (scaled _ first) (scaled _ ?_)) (scaled _ ?_)) (scaled _ ?_)
      · exact sub_mem (scaled _ third) (scaled _ second)
      · exact sub_mem (scaled _ third) (scaled _ fourth)
      · exact sub_mem (scaled _ second) (scaled _ fourth)
    have root_mem : T ∈ I := by
      have split : T = ⟨X * x, 0⟩ * (⟨e * v₁, 0⟩ * ⟨m₂, 1⟩) +
          ⟨X * y, 0⟩ * (⟨m₁, 1⟩ * ⟨e * v₂, 0⟩) + ⟨Y, 0⟩ * (⟨m₁, 1⟩ * ⟨m₂, 1⟩) + ⟨k, 0⟩ * A := by
        ext
        · simp [root, outer, shift]
          linear_combination (-e * m₂) * bezout - Y * m₂ * half + Y * closed₂
        · simp [root, outer]
          linear_combination (-e) * bezout - Y * half
      rw [split]
      exact add_mem (add_mem (add_mem (scaled _ second) (scaled _ third)) (scaled _ fourth))
        (scaled _ outer_mem)
    exact Ideal.span_le.mpr (Set.insert_subset outer_mem (Set.singleton_subset_iff.mpr root_mem))

/-- The composed form has the discriminant. -/
theorem exists_last {e v₁ v₂ s m₁ m₂ c₁ c₂ x y X Y k : ℤ}
    (closed₁ : m₁ ^ 2 + m₁ + n = e * v₁ * c₁) (closed₂ : m₂ ^ 2 + m₂ + n = e * v₂ * c₂)
    (half : m₁ + m₂ + 1 = e * s) (bezout : X * (x * v₁ + y * v₂) + Y * s = 1) (nonzero : e ≠ 0)
    {t : ℤ} (shift : t = (m₁ - m₂) * y * X - c₂ * Y + k * v₁) :
    ∃ c, (m₂ + v₂ * t) ^ 2 + (m₂ + v₂ * t) + n = v₁ * v₂ * c := by
  have crossed := crossed_eq closed₁ closed₂ half nonzero
  refine ⟨e * (X * y * c₁ + c₂ * X * x + s * k) + t * (k * v₂ - Y * c₁ - (m₁ - m₂) * X * x), ?_⟩
  have lower : c₂ + s * t = v₁ * (X * y * c₁ + c₂ * X * x + s * k) := by
    rw [shift]
    linear_combination (-c₂) * bezout - X * y * crossed
  have upper : v₂ * t - (m₁ - m₂) = v₁ * (k * v₂ - Y * c₁ - (m₁ - m₂) * X * x) := by
    rw [shift]
    linear_combination (m₁ - m₂) * bezout + Y * crossed
  linear_combination closed₂ + v₂ * t * half + v₂ * e * lower + v₂ * t * upper

end Operations

end QuadraticForms
