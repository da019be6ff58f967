import Mathlib.Algebra.Squarefree.Basic
import Mathlib.Data.Int.GCD
import Mathlib.Data.Nat.Prime.Int
import Mathlib.Tactic.NormNum.Prime
import Obscura.Lib.QuadraticForms

/-! # The class group

The elements of the accumulator's group are reduced binary quadratic forms of a discriminant
`-p` with `p` a prime that is seven modulo eight. The operation composes two forms by the
formula of Dirichlet and reduces the result. Its inputs are divided only where the division is
exact, and on the reduced forms it is a commutative group law: the ideal of a composition is
the product of the ideals up to a factor, and a class of ideals holds one reduced form.
-/

namespace Obscura.Group

open QuadraticForms

/-- The form `A * x ^ 2 + B * x * y + C * y ^ 2`. -/
structure Form where
  A : ℤ
  B : ℤ
  C : ℤ
deriving DecidableEq

/-- The coefficients that `big.Int.GCD` returns beside the divisor of two nonnegative numbers. -/
structure BigGCD where
  coefficients : ℤ → ℤ → ℤ × ℤ
  bezout : ∀ a b, 0 ≤ a → 0 ≤ b →
    a * (coefficients a b).1 + b * (coefficients a b).2 = Int.gcd a b

/-! ## Normalization and reduction -/

/-- The quotient rounded down, for a positive divisor. -/
def floorDiv (n d : ℤ) : ℤ := n / d

/-- Brings the middle coefficient into range. -/
def normalize (D : ℤ) (f : Form) : Form :=
  if -f.A < f.B ∧ f.B ≤ f.A then
    f
  else
    let k := floorDiv (f.A - f.B) (2 * f.A)
    let bNew := f.B + 2 * f.A * k
    ⟨f.A, bNew, (bNew * bNew - D) / (4 * f.A)⟩

/-- The loop of `reduce`; on a positive definite form every round lowers the leading
coefficient, so as many rounds are enough. -/
def reduceLoop (D : ℤ) : Nat → Form → Form
  | 0, r => r
  | rounds + 1, r =>
    if r.A < r.C then
      r
    else if r.A = r.C then
      if 0 ≤ r.B then r else ⟨r.A, -r.B, r.C⟩
    else
      reduceLoop D rounds (normalize D ⟨r.C, -r.B, r.A⟩)

/-- Normalizes, then swaps and normalizes until the form is reduced. -/
def reduce (D : ℤ) (f : Form) : Form := reduceLoop D f.A.toNat (normalize D f)

/-! ## Composition -/

section Compose

variable (Z : BigGCD) (D : ℤ)

/-- The divisor of two integers with its coefficients. -/
def xgcd (a b : ℤ) : ℤ × ℤ × ℤ :=
  let (x, y) := Z.coefficients |a| |b|
  (Int.gcd a b, if a < 0 then -x else x, if b < 0 then -y else y)

/-- What `compose` hands to `reduce`. -/
def composition (f1 f2 : Form) : Form :=
  let s := (f1.B + f2.B) / 2
  let (g, _, y) := xgcd Z f1.A f2.A
  let (e, X, Y) := xgcd Z g s
  let eSq := e * e
  let a3 := f1.A * f2.A / eSq
  let a1e := f1.A / e
  let a2e := f2.A / e
  let half := (f1.B - f2.B) / 2
  let t := (half * y * X - f2.C * Y) % a1e
  let B := 2 * a2e * t + f2.B
  ⟨a3, B, (B * B - D) / (4 * a3)⟩

/-- The reduced composition of two forms. -/
def compose (f1 f2 : Form) : Form := reduce D (composition Z D f1 f2)

/-- The principal form. -/
def identity : Form := reduce D ⟨1, 1, (1 - D) / 4⟩

/-- The reduced opposite form. -/
def inverse (f : Form) : Form := reduce D ⟨f.A, -f.B, f.C⟩

end Compose

/-- A discriminant and the generator. -/
structure ClassGroup where
  D : ℤ
  gen : Form

/-- The group of a discriminant, which must be negative and one modulo eight. -/
def newClassGroup (D : ℤ) : Except String ClassGroup :=
  if 0 ≤ D then
    .error "classgroup: discriminant must be negative"
  else if -D % 8 ≠ 7 then
    .error "classgroup: require D ≡ 1 (mod 8)"
  else
    .ok ⟨D, reduce D ⟨2, 1, (1 - D) / 8⟩⟩

/-! ## The divisions that are meant to be exact -/

section Divisions

variable (Z : BigGCD) (D : ℤ)

/-- The dividend and the divisor in `normalize`. -/
def normalizeDivisions (f : Form) : List (ℤ × ℤ) :=
  if -f.A < f.B ∧ f.B ≤ f.A then
    []
  else
    let bNew := f.B + 2 * f.A * floorDiv (f.A - f.B) (2 * f.A)
    [(bNew * bNew - D, 4 * f.A)]

/-- The divisions that the loop makes. -/
def reduceLoopDivisions : Nat → Form → List (ℤ × ℤ)
  | 0, _ => []
  | rounds + 1, r =>
    if r.A < r.C ∨ r.A = r.C then
      []
    else
      normalizeDivisions D ⟨r.C, -r.B, r.A⟩ ++
        reduceLoopDivisions rounds (normalize D ⟨r.C, -r.B, r.A⟩)

/-- The divisions that a reduction makes. -/
def reduceDivisions (f : Form) : List (ℤ × ℤ) :=
  normalizeDivisions D f ++ reduceLoopDivisions D f.A.toNat (normalize D f)

/-- The divisions of `compose`: the two halves, the coefficients by the common divisor, the
last coefficient, and those of the reduction. -/
def composeDivisions (f1 f2 : Form) : List (ℤ × ℤ) :=
  let s := (f1.B + f2.B) / 2
  let (g, _, _) := xgcd Z f1.A f2.A
  let (e, _, _) := xgcd Z g s
  let f3 := composition Z D f1 f2
  [(f1.B + f2.B, 2), (f1.A * f2.A, e * e), (f1.A, e), (f2.A, e), (f1.B - f2.B, 2),
    (f3.B * f3.B - D, 4 * f3.A)] ++ reduceDivisions D f3

end Divisions

/-! ## Positive definite forms -/

/-- A positive definite form of discriminant `1 - 4n`. -/
structure Positive (n : ℤ) (f : Form) : Prop where
  disc : f.B ^ 2 - 4 * f.A * f.C = 1 - 4 * n
  leading : 0 < f.A

/-- The root of the ideal of a form. -/
def Form.root (f : Form) : ℤ := (f.B - 1) / 2

/-- The ideal of a form. -/
def Form.ideal (n : ℤ) (f : Form) : OrderIdeal n := formIdeal n f.A f.root

section Positive

variable {n : ℤ} {f g : Form}

namespace Positive

theorem middle (positive : Positive n f) : f.B = 2 * f.root + 1 := by
  obtain ⟨k, even | odd⟩ := Int.even_or_odd' f.B
  · have disc := positive.disc
    rw [even] at disc
    have four : 4 * (k ^ 2 - f.A * f.C + n) = 1 := by linear_combination disc
    omega
  · rw [Form.root, odd]
    omega

theorem closed (positive : Positive n f) : f.root ^ 2 + f.root + n = f.A * f.C := by
  have four : 4 * (f.root ^ 2 + f.root + n) = 4 * (f.A * f.C) := by
    linear_combination positive.disc - (f.B + 2 * f.root + 1) * positive.middle
  linarith

theorem of_closed {m : ℤ} (middle : f.B = 2 * m + 1) (closed : m ^ 2 + m + n = f.A * f.C)
    (leading : 0 < f.A) : Positive n f ∧ f.root = m := by
  refine ⟨⟨?_, leading⟩, ?_⟩
  · rw [middle]
    linear_combination 4 * closed
  · rw [Form.root, middle]
    omega

theorem last (definite : 0 < n) (positive : Positive n f) : 0 < f.C := by
  have four : 0 < 4 * f.A * f.C := by
    have square := sq_nonneg f.B
    have disc := positive.disc
    linarith
  exact (mul_pos_iff_of_pos_left (by linarith [positive.leading])).mp four

/-- The form turned over. -/
theorem turn (definite : 0 < n) (positive : Positive n f) : Positive n ⟨f.C, -f.B, f.A⟩ ∧
    Equivalent ((⟨f.C, -f.B, f.A⟩ : Form).ideal n) (f.ideal n) := by
  have closed := positive.closed
  obtain ⟨turned, root⟩ : Positive n ⟨f.C, -f.B, f.A⟩ ∧
      (⟨f.C, -f.B, f.A⟩ : Form).root = -f.root - 1 := by
    refine of_closed ?_ ?_ (positive.last definite)
    · change -f.B = 2 * (-f.root - 1) + 1
      linear_combination -positive.middle
    · change _ = f.C * f.A
      rw [mul_comm, ← closed]
      ring
  refine ⟨turned, ?_⟩
  rw [Form.ideal, root]
  exact (formIdeal_turn closed positive.leading.ne' (positive.last definite).ne').symm

end Positive

/-! ## Normalization -/

/-- The middle coefficient is in range. -/
def Normal (f : Form) : Prop := -f.A < f.B ∧ f.B ≤ f.A

/-- Every division of a list is exact. -/
def Exact (divisions : List (ℤ × ℤ)) : Prop := ∀ d ∈ divisions, d.2 ≠ 0 ∧ d.2 ∣ d.1

theorem Exact.append {first second : List (ℤ × ℤ)} (left : Exact first) (right : Exact second) :
    Exact (first ++ second) := by
  intro d member
  rcases List.mem_append.mp member with before | after
  · exact left d before
  · exact right d after

theorem normalize_A (D : ℤ) (f : Form) : (normalize D f).A = f.A := by
  unfold normalize
  split_ifs
  · rfl
  · rfl

/-- Normalizing keeps the form positive and its ideal the same, with exact divisions. -/
theorem Positive.normalize (positive : Positive n f) :
    Positive n (normalize (1 - 4 * n) f) ∧ Normal (normalize (1 - 4 * n) f) ∧
      (normalize (1 - 4 * n) f).ideal n = f.ideal n ∧
        Exact (normalizeDivisions (1 - 4 * n) f) := by
  unfold Group.normalize normalizeDivisions
  split_ifs with normal
  · exact ⟨positive, normal, rfl, fun _ member => nomatch member⟩
  · set k := floorDiv (f.A - f.B) (2 * f.A) with quotient
    have leading := positive.leading
    have twice : 0 < 2 * f.A := by linarith
    have low : k * (2 * f.A) ≤ f.A - f.B := Int.ediv_mul_le _ twice.ne'
    have high : f.A - f.B < (k + 1) * (2 * f.A) := Int.lt_ediv_add_one_mul_self _ twice
    have last : (f.B + 2 * f.A * k) * (f.B + 2 * f.A * k) - (1 - 4 * n) =
        4 * f.A * (f.C + k * (f.B + f.A * k)) := by
      linear_combination positive.disc
    have exact_quotient : ((f.B + 2 * f.A * k) * (f.B + 2 * f.A * k) - (1 - 4 * n)) / (4 * f.A) =
        f.C + k * (f.B + f.A * k) := by
      rw [last, Int.mul_ediv_cancel_left _ (by linarith)]
    obtain ⟨normalized, root⟩ : Positive n ⟨f.A, f.B + 2 * f.A * k,
          ((f.B + 2 * f.A * k) * (f.B + 2 * f.A * k) - (1 - 4 * n)) / (4 * f.A)⟩ ∧
        Form.root ⟨f.A, f.B + 2 * f.A * k,
          ((f.B + 2 * f.A * k) * (f.B + 2 * f.A * k) - (1 - 4 * n)) / (4 * f.A)⟩ =
            f.root + f.A * k := by
      refine Positive.of_closed ?_ ?_ leading
      · change f.B + 2 * f.A * k = 2 * (f.root + f.A * k) + 1
        linear_combination positive.middle
      · rw [exact_quotient]
        change _ = f.A * (f.C + k * (f.B + f.A * k))
        linear_combination positive.closed - f.A * k * positive.middle
    refine ⟨normalized, ⟨?_, ?_⟩, ?_, ?_⟩
    · change -f.A < f.B + 2 * f.A * k
      linarith
    · change f.B + 2 * f.A * k ≤ f.A
      linarith
    · rw [Form.ideal, root]
      exact formIdeal_shift n f.A f.root k
    · intro d member
      obtain rfl := List.mem_singleton.mp member
      exact ⟨by linarith, _, last⟩

/-! ## Reduction -/

/-- A reduced form of discriminant `1 - 4n`. -/
structure ReducedForm (n : ℤ) (f : Form) : Prop where
  positive : Positive n f
  shape : Reduced f.A f.B f.C

theorem normal_reduced (positive : Positive n f) (normal : Normal f) (le : f.A ≤ f.C)
    (edge : f.A = f.C → 0 ≤ f.B) : ReducedForm n f :=
  ⟨positive, positive.leading, normal.1, normal.2, le, edge⟩

/-- The loop ends with a reduced form, stays in the class and divides exactly. -/
theorem reduceLoop_spec (definite : 0 < n) (rounds : Nat) (positive : Positive n f)
    (normal : Normal f) (enough : f.A ≤ rounds) :
    ReducedForm n (reduceLoop (1 - 4 * n) rounds f) ∧
      Equivalent ((reduceLoop (1 - 4 * n) rounds f).ideal n) (f.ideal n) ∧
        Exact (reduceLoopDivisions (1 - 4 * n) rounds f) := by
  induction rounds generalizing f with
  | zero => exact absurd positive.leading (by simpa using enough)
  | succ rounds ih =>
    obtain ⟨turned, same⟩ := positive.turn definite
    rw [reduceLoop, reduceLoopDivisions]
    rcases lt_trichotomy f.A f.C with below | equal | above
    · rw [if_pos below, if_pos (Or.inl below)]
      refine ⟨normal_reduced positive normal below.le fun equal => ?_, Equivalent.refl _,
        fun _ member => nomatch member⟩
      exact absurd equal below.ne
    · rw [if_neg equal.not_lt, if_pos equal, if_pos (Or.inr equal)]
      split_ifs with sign
      · exact ⟨normal_reduced positive normal equal.le fun _ => sign, Equivalent.refl _,
          fun _ member => nomatch member⟩
      · -- the two outer coefficients agree, so the flip is a turn
        rw [← equal] at turned same
        have negative := not_le.mp sign
        refine ⟨?_, ?_, fun _ member => nomatch member⟩
        · rw [← equal]
          refine normal_reduced turned ⟨?_, ?_⟩ le_rfl fun _ => ?_
          · change -f.A < -f.B
            linarith [positive.leading]
          · change -f.B ≤ f.A
            linarith [normal.1]
          · change 0 ≤ -f.B
            linarith
        · rw [← equal]
          exact same
    · rw [if_neg above.not_gt, if_neg above.ne', if_neg (by
        rintro (below | equal)
        · exact above.not_gt below
        · exact above.ne' equal)]
      obtain ⟨normalized, inside, kept, exact_first⟩ := turned.normalize
      have fewer : (Group.normalize (1 - 4 * n) ⟨f.C, -f.B, f.A⟩).A ≤ rounds := by
        rw [normalize_A]
        change f.C ≤ rounds
        push_cast at enough
        linarith
      obtain ⟨reduced, equivalent, exact_rest⟩ := ih normalized inside fewer
      rw [kept] at equivalent
      exact ⟨reduced, equivalent.trans same, exact_first.append exact_rest⟩

theorem reduce_spec (definite : 0 < n) (positive : Positive n f) :
    ReducedForm n (reduce (1 - 4 * n) f) ∧
      Equivalent ((reduce (1 - 4 * n) f).ideal n) (f.ideal n) ∧
        Exact (reduceDivisions (1 - 4 * n) f) := by
  obtain ⟨normalized, inside, kept, exact_first⟩ := positive.normalize
  have enough : (normalize (1 - 4 * n) f).A ≤ f.A.toNat := by
    rw [normalize_A]
    exact Int.self_le_toNat f.A
  obtain ⟨reduced, equivalent, exact_rest⟩ :=
    reduceLoop_spec definite f.A.toNat normalized inside enough
  rw [kept] at equivalent
  exact ⟨reduced, equivalent, exact_first.append exact_rest⟩

theorem ReducedForm.eq_of_equivalent (definite : 0 < n) (left : ReducedForm n f)
    (right : ReducedForm n g) (equivalent : Equivalent (f.ideal n) (g.ideal n)) : f = g := by
  have shape := left.shape
  have shape' := right.shape
  rw [left.positive.middle] at shape
  rw [right.positive.middle] at shape'
  obtain ⟨first, root, third⟩ := equivalent.reduced_eq definite left.positive.closed
    right.positive.closed shape shape'
  obtain ⟨A, B, C⟩ := f
  obtain ⟨A', B', C'⟩ := g
  have middle := left.positive.middle
  have middle' := right.positive.middle
  rw [← root] at middle'
  have second := middle.trans middle'.symm
  simp only at first second third
  rw [first, second, third]

end Positive

/-! ## Composition of forms -/

section Composition

variable {n : ℤ} {f g : Form} (Z : BigGCD)

/-- No integer but one divides all coefficients. -/
def Primitive (f : Form) : Prop := Int.gcd (Int.gcd f.A f.B) f.C = 1

theorem xgcd_bezout (a b : ℤ) : a * (xgcd Z a b).2.1 + b * (xgcd Z a b).2.2 = (xgcd Z a b).1 := by
  have law := Z.bezout |a| |b| (abs_nonneg a) (abs_nonneg b)
  have divisor : Int.gcd |a| |b| = Int.gcd a b := by
    rw [Int.gcd_def, Int.gcd_def, Int.natAbs_abs, Int.natAbs_abs]
  rw [divisor] at law
  have signed (c x : ℤ) : c * (if c < 0 then -x else x) = |c| * x := by
    split_ifs with negative
    · rw [abs_of_neg negative]
      ring
    · rw [abs_of_nonneg (not_lt.mp negative)]
  change a * (if a < 0 then _ else _) + b * (if b < 0 then _ else _) = (Int.gcd a b : ℤ)
  rw [signed, signed]
  exact law

theorem exists_combination {a b c : ℤ} (one : Int.gcd (Int.gcd a b) c = 1) :
    ∃ u v w, u * a + v * b + w * c = 1 := by
  have first := Int.gcd_eq_gcd_ab a b
  have second := Int.gcd_eq_gcd_ab (Int.gcd a b) c
  rw [one, Nat.cast_one] at second
  refine ⟨Int.gcdA a b * Int.gcdA (Int.gcd a b) c, Int.gcdB a b * Int.gcdA (Int.gcd a b) c,
    Int.gcdB (Int.gcd a b) c, ?_⟩
  linear_combination -second - Int.gcdA (Int.gcd a b) c * first

theorem Primitive.isUnit (primitive : Primitive f) {q : ℤ} (first : q ∣ f.A) (second : q ∣ f.B)
    (third : q ∣ f.C) : IsUnit q := by
  have divides := Int.dvd_coe_gcd (Int.dvd_coe_gcd first second) third
  rw [primitive] at divides
  exact isUnit_of_dvd_one divides

theorem Primitive.combination (primitive : Primitive f) (left : Positive n f) {e : ℤ}
    (leading : e ∣ f.A) (half : e ∣ f.root + g.root + 1) :
    ∃ u v w, u * e + v * (f.root - g.root) + w * f.C = 1 := by
  apply exists_combination
  set q := Int.gcd (Int.gcd e (f.root - g.root)) f.C with common
  have inner : (q : ℤ) ∣ Int.gcd e (f.root - g.root) := Int.gcd_dvd_left _ _
  have divisor : (q : ℤ) ∣ e := inner.trans (Int.gcd_dvd_left _ _)
  have difference : (q : ℤ) ∣ f.root - g.root := inner.trans (Int.gcd_dvd_right _ _)
  have middle : f.B = (f.root + g.root + 1) + (f.root - g.root) := by
    rw [left.middle]
    ring
  have unit := primitive.isUnit (divisor.trans leading)
    (middle ▸ dvd_add (divisor.trans half) difference) (Int.gcd_dvd_right _ _)
  exact Int.ofNat_isUnit.mp unit |> Nat.isUnit_iff.mp

/-- The quantities of a composition. -/
structure Composed (n : ℤ) (f g f3 : Form) (e : ℤ) : Prop where
  nonzero : e ≠ 0
  positive : Positive n f3
  product : f.ideal n * g.ideal n = multiples n e * f3.ideal n
  exact : Exact [(f.B + g.B, 2), (f.A * g.A, e * e), (f.A, e), (g.A, e), (f.B - g.B, 2),
    (f3.B * f3.B - (1 - 4 * n), 4 * f3.A)]

/-- The common divisor of the leading coefficients and the half sum of the middle ones. -/
def commonDivisor (f g : Form) : ℤ := (xgcd Z (xgcd Z f.A g.A).1 ((f.B + g.B) / 2)).1

/-- The product of two ideals, from any coefficients that fit. -/
theorem composed_of {x y X Y d e : ℤ} (left : Positive n f) (right : Positive n g)
    (primitive : Primitive f) (inner : f.A * x + g.A * y = d)
    (outer : d * X + (f.B + g.B) / 2 * Y = e) (nonneg : 0 ≤ e) (first : e ∣ f.A)
    (second : e ∣ g.A) (half : e ∣ (f.B + g.B) / 2) {t B : ℤ}
    (rest : t = ((f.B - g.B) / 2 * y * X - g.C * Y) % (f.A / e))
    (middle : B = 2 * (g.A / e) * t + g.B) :
    Composed n f g ⟨f.A * g.A / (e * e), B,
      (B * B - (1 - 4 * n)) / (4 * (f.A * g.A / (e * e)))⟩ e := by
  have own := left.middle
  have own' := right.middle
  have sum : (f.B + g.B) / 2 = f.root + g.root + 1 := by omega
  have difference : (f.B - g.B) / 2 = f.root - g.root := by omega
  rw [sum] at outer half
  rw [difference] at rest
  obtain ⟨u, v, w, combination⟩ := primitive.combination left first half
  have coprime : u * e + v * (f.root - g.root) + w * f.C + 0 * g.C = 1 := by
    linear_combination combination
  obtain ⟨v₁, leading⟩ := first
  obtain ⟨v₂, leading'⟩ := second
  obtain ⟨s, halves⟩ := half
  have nonzero : e ≠ 0 := fun zero => left.leading.ne' (by rw [leading, zero, zero_mul])
  have above : 0 < e := lt_of_le_of_ne nonneg nonzero.symm
  have pos₁ : 0 < v₁ := (mul_pos_iff_of_pos_left above).mp (leading ▸ left.leading)
  have pos₂ : 0 < v₂ := (mul_pos_iff_of_pos_left above).mp (leading' ▸ right.leading)
  have closed₁ := left.closed
  have closed₂ := right.closed
  rw [leading] at closed₁
  rw [leading'] at closed₂
  have quotient₁ : f.A / e = v₁ := by rw [leading, Int.mul_ediv_cancel_left _ nonzero]
  have quotient₂ : g.A / e = v₂ := by rw [leading', Int.mul_ediv_cancel_left _ nonzero]
  have square : f.A * g.A = e * e * (v₁ * v₂) := by
    rw [leading, leading']
    ring
  have product : f.A * g.A / (e * e) = v₁ * v₂ := by
    rw [square, Int.mul_ediv_cancel_left _ (mul_ne_zero nonzero nonzero)]
  have bezout : X * (x * v₁ + y * v₂) + Y * s = 1 := by
    apply mul_left_cancel₀ nonzero
    rw [leading, leading'] at inner
    rw [halves] at outer
    linear_combination outer + X * inner
  have shift : t = (f.root - g.root) * y * X - g.C * Y +
      -(((f.root - g.root) * y * X - g.C * Y) / v₁) * v₁ := by
    rw [rest, quotient₁, Int.emod_def]
    ring
  have halfway : B = 2 * (g.root + v₂ * t) + 1 := by
    rw [middle, quotient₂, right.middle]
    ring
  obtain ⟨c, closed⟩ := exists_last closed₁ closed₂ halves bezout nonzero shift
  have dividend : B * B - (1 - 4 * n) = 4 * (v₁ * v₂) * c := by
    rw [halfway]
    linear_combination 4 * closed
  have outer_pos : 0 < v₁ * v₂ := mul_pos pos₁ pos₂
  have last : (B * B - (1 - 4 * n)) / (4 * (v₁ * v₂)) = c := by
    rw [dividend, Int.mul_ediv_cancel_left _ (by linarith)]
  rw [product, last]
  obtain ⟨positive, root⟩ := @Positive.of_closed n ⟨v₁ * v₂, B, c⟩ _ halfway closed outer_pos
  refine ⟨nonzero, positive, ?_, ?_⟩
  · rw [Form.ideal, Form.ideal, Form.ideal, root, leading, leading']
    exact formIdeal_mul closed₁ closed₂ halves bezout nonzero shift coprime
  · intro division member
    simp only [List.mem_cons, List.not_mem_nil, or_false] at member
    rcases member with rfl | rfl | rfl | rfl | rfl | rfl
    · exact ⟨two_ne_zero, f.root + g.root + 1, by linarith⟩
    · exact ⟨mul_ne_zero nonzero nonzero, v₁ * v₂, square⟩
    · exact ⟨nonzero, v₁, leading⟩
    · exact ⟨nonzero, v₂, leading'⟩
    · exact ⟨two_ne_zero, f.root - g.root, by linarith⟩
    · exact ⟨mul_ne_zero four_ne_zero outer_pos.ne', c, dividend⟩

/-- **Composition.** The composed form is positive definite, its ideal is the product of the
ideals up to a factor, and the divisions are exact. -/
theorem composition_spec (left : Positive n f) (right : Positive n g) (primitive : Primitive f) :
    Composed n f g (composition Z (1 - 4 * n) f g) (commonDivisor Z f g) := by
  have divides : commonDivisor Z f g ∣ (xgcd Z f.A g.A).1 := Int.gcd_dvd_left _ _
  have half : commonDivisor Z f g ∣ (f.B + g.B) / 2 := Int.gcd_dvd_right _ _
  have nonneg : 0 ≤ commonDivisor Z f g := Int.natCast_nonneg _
  exact composed_of left right primitive (xgcd_bezout Z f.A g.A) (xgcd_bezout Z _ _) nonneg
    (divides.trans (Int.gcd_dvd_left _ _)) (divides.trans (Int.gcd_dvd_right _ _)) half rfl rfl

end Composition

/-! ## The group law -/

section Law

variable {p : Nat} (Z : BigGCD)

/-- A reduced primitive positive definite form of a discriminant. -/
structure IsReduced (D : ℤ) (f : Form) : Prop where
  disc : f.B ^ 2 - 4 * f.A * f.C = D
  primitive : Primitive f
  shape : Reduced f.A f.B f.C

theorem primitive_of_disc (prime : p.Prime) {f : Form} (disc : f.B ^ 2 - 4 * f.A * f.C = -p) :
    Primitive f := by
  set q := Int.gcd (Int.gcd f.A f.B) f.C with common
  have inner : (q : ℤ) ∣ Int.gcd f.A f.B := Int.gcd_dvd_left _ _
  obtain ⟨a, first⟩ : (q : ℤ) ∣ f.A := inner.trans (Int.gcd_dvd_left _ _)
  obtain ⟨b, second⟩ : (q : ℤ) ∣ f.B := inner.trans (Int.gcd_dvd_right _ _)
  obtain ⟨c, third⟩ : (q : ℤ) ∣ f.C := Int.gcd_dvd_right _ _
  have square : (q : ℤ) * q ∣ p := by
    refine ⟨4 * a * c - b ^ 2, ?_⟩
    rw [first, second, third] at disc
    linear_combination disc
  have squares : q * q ∣ p := by exact_mod_cast square
  exact Nat.isUnit_iff.mp (prime.prime.irreducible.squarefree q squares)

theorem exists_quarter (residue : p % 8 = 7) :
    ∃ n : ℤ, 0 < n ∧ -(p : ℤ) = 1 - 4 * n := by
  refine ⟨(p + 1) / 4, ?_, ?_⟩ <;> omega

variable {n : ℤ}

theorem isReduced_iff (prime : p.Prime) (quarter : -(p : ℤ) = 1 - 4 * n) {f : Form} :
    IsReduced (-p) f ↔ ReducedForm n f := by
  constructor
  · intro reduced
    exact ⟨⟨reduced.disc.trans quarter, reduced.shape.positive⟩, reduced.shape⟩
  · intro reduced
    have disc := reduced.positive.disc.trans quarter.symm
    exact ⟨disc, primitive_of_disc prime disc, reduced.shape⟩

theorem compose_spec (definite : 0 < n) {f g : Form} (left : ReducedForm n f)
    (right : ReducedForm n g) (primitive : Primitive f) :
    ReducedForm n (compose Z (1 - 4 * n) f g) ∧
      Equivalent ((compose Z (1 - 4 * n) f g).ideal n) (f.ideal n * g.ideal n) ∧
        Exact (composeDivisions Z (1 - 4 * n) f g) := by
  have composed := composition_spec Z left.positive right.positive primitive
  obtain ⟨reduced, equivalent, exact_rest⟩ := reduce_spec definite composed.positive
  have scaled := Equivalent.of_multiples composed.nonzero composed.product
  exact ⟨reduced, equivalent.trans scaled.symm, composed.exact.append exact_rest⟩

theorem identity_spec (definite : 0 < n) :
    ReducedForm n (identity (1 - 4 * n)) ∧ Equivalent ((identity (1 - 4 * n)).ideal n) ⊤ := by
  have last : (1 - (1 - 4 * n)) / 4 = n := by omega
  obtain ⟨positive, root⟩ := @Positive.of_closed n ⟨1, 1, n⟩ 0 rfl (by ring) one_pos
  obtain ⟨reduced, equivalent, -⟩ := reduce_spec definite positive
  have unit : (⟨1, 1, n⟩ : Form).ideal n = ⊤ := formIdeal_one n _
  rw [unit] at equivalent
  rw [identity, last]
  exact ⟨reduced, equivalent⟩

/-- The inverse is reduced and has the inverse class. -/
theorem inverse_spec (definite : 0 < n) {f : Form} (reduced : ReducedForm n f)
    (primitive : Primitive f) : ReducedForm n (inverse (1 - 4 * n) f) ∧
      Equivalent (f.ideal n * (inverse (1 - 4 * n) f).ideal n) ⊤ := by
  have positive := reduced.positive
  obtain ⟨opposite, root⟩ : Positive n ⟨f.A, -f.B, f.C⟩ ∧
      (⟨f.A, -f.B, f.C⟩ : Form).root = -f.root - 1 := by
    refine Positive.of_closed ?_ ?_ positive.leading
    · change -f.B = 2 * (-f.root - 1) + 1
      linear_combination -positive.middle
    · change _ = f.A * f.C
      linear_combination positive.closed
  obtain ⟨reduced', equivalent, -⟩ := reduce_spec definite opposite
  obtain ⟨u, v, w, combination⟩ := exists_combination primitive
  rw [positive.middle] at combination
  have principal := formIdeal_opposite positive.closed combination
  refine ⟨reduced', ((Equivalent.refl _).mul equivalent).trans ?_⟩
  rw [Form.ideal, Form.ideal, root]
  exact Equivalent.of_multiples positive.leading.ne' principal

theorem newClassGroup_prime (prime : p.Prime) (residue : p % 8 = 7) :
    ∃ G, newClassGroup (-p) = .ok G ∧ G.D = -p ∧ IsReduced (-p) G.gen := by
  have positive := prime.pos
  obtain ⟨n, definite, quarter⟩ := exists_quarter residue
  obtain ⟨c, eighth⟩ : (8 : ℤ) ∣ 1 + p := by omega
  have last : (1 - -(p : ℤ)) / 8 = c := by omega
  refine ⟨⟨-p, reduce (-p) ⟨2, 1, (1 - -(p : ℤ)) / 8⟩⟩, ?_, rfl, ?_⟩
  · rw [newClassGroup, if_neg (by omega), if_neg (by omega)]
  · have form : Positive n ⟨2, 1, c⟩ := by
      refine (@Positive.of_closed n ⟨2, 1, c⟩ 0 rfl ?_ two_pos).1
      change 0 ^ 2 + 0 + n = 2 * c
      linarith
    rw [isReduced_iff prime quarter, last, quarter]
    exact (reduce_spec definite form).1

section Laws

variable (definite : 0 < n) (primitive : ∀ f, ReducedForm n f → Primitive f) {f g h : Form}
  (first : ReducedForm n f) (second : ReducedForm n g) (third : ReducedForm n h)

include definite primitive first second

theorem compose_comm : compose Z (1 - 4 * n) f g = compose Z (1 - 4 * n) g f := by
  obtain ⟨left, equivalent, -⟩ := compose_spec Z definite first second (primitive f first)
  obtain ⟨right, equivalent', -⟩ := compose_spec Z definite second first (primitive g second)
  rw [mul_comm (g.ideal n)] at equivalent'
  exact left.eq_of_equivalent definite right (equivalent.trans equivalent'.symm)

include third in
/-- Composition is associative. -/
theorem compose_assoc : compose Z (1 - 4 * n) (compose Z (1 - 4 * n) f g) h =
    compose Z (1 - 4 * n) f (compose Z (1 - 4 * n) g h) := by
  obtain ⟨front, atFront, -⟩ := compose_spec Z definite first second (primitive f first)
  obtain ⟨back, atBack, -⟩ := compose_spec Z definite second third (primitive g second)
  obtain ⟨left, equivalent, -⟩ := compose_spec Z definite front third (primitive _ front)
  obtain ⟨right, equivalent', -⟩ := compose_spec Z definite first back (primitive f first)
  refine left.eq_of_equivalent definite right ?_
  have expanded := equivalent.trans (atFront.mul (Equivalent.refl (h.ideal n)))
  have expanded' := equivalent'.trans ((Equivalent.refl (f.ideal n)).mul atBack)
  rw [mul_assoc] at expanded
  exact expanded.trans expanded'.symm

omit second in
theorem compose_identity : compose Z (1 - 4 * n) f (identity (1 - 4 * n)) = f := by
  obtain ⟨neutral, unit⟩ := identity_spec definite
  obtain ⟨left, equivalent, -⟩ := compose_spec Z definite first neutral (primitive f first)
  exact left.eq_of_equivalent definite first (equivalent.trans (Equivalent.mul_unit unit))

omit second in
theorem compose_inverse :
    compose Z (1 - 4 * n) f (inverse (1 - 4 * n) f) = identity (1 - 4 * n) := by
  obtain ⟨neutral, unit⟩ := identity_spec definite
  obtain ⟨opposite, principal⟩ := inverse_spec definite first (primitive f first)
  obtain ⟨left, equivalent, -⟩ := compose_spec Z definite first opposite (primitive f first)
  exact left.eq_of_equivalent definite neutral (equivalent.trans (principal.trans unit.symm))

end Laws

/-- **The group law.** Composition divides exactly and stays among the reduced forms; there it
is commutative and associative, the principal form is neutral and the opposite form inverse. -/
theorem class_group_law (prime : p.Prime) (residue : p % 8 = 7) :
    (∀ f g, IsReduced (-p) f → IsReduced (-p) g →
      (∀ d ∈ composeDivisions Z (-p) f g, d.2 ≠ 0 ∧ d.2 ∣ d.1) ∧
        IsReduced (-p) (compose Z (-p) f g)) ∧
    (∀ f g, IsReduced (-p) f → IsReduced (-p) g → compose Z (-p) f g = compose Z (-p) g f) ∧
    (∀ f g h, IsReduced (-p) f → IsReduced (-p) g → IsReduced (-p) h →
      compose Z (-p) (compose Z (-p) f g) h = compose Z (-p) f (compose Z (-p) g h)) ∧
    (IsReduced (-p) (identity (-p)) ∧ ∀ f, IsReduced (-p) f →
      compose Z (-p) f (identity (-p)) = f ∧ compose Z (-p) (identity (-p)) f = f) ∧
    ∀ f, IsReduced (-p) f → IsReduced (-p) (inverse (-p) f) ∧
      compose Z (-p) f (inverse (-p) f) = identity (-p) ∧
        compose Z (-p) (inverse (-p) f) f = identity (-p) := by
  obtain ⟨n, definite, quarter⟩ := exists_quarter residue
  have reduced_iff : ∀ f, IsReduced (1 - 4 * n) f ↔ ReducedForm n f := fun f =>
    quarter ▸ isReduced_iff prime quarter
  have primitive : ∀ f, ReducedForm n f → Primitive f := fun f reduced =>
    ((reduced_iff f).mpr reduced).primitive
  simp only [quarter, reduced_iff]
  obtain ⟨neutral, -⟩ := identity_spec definite
  refine ⟨fun f g first second => ?_, fun f g first second => ?_,
    fun f g h first second third => ?_, ⟨neutral, fun f first => ?_⟩, fun f first => ?_⟩
  · obtain ⟨reduced, -, exact_divisions⟩ :=
      compose_spec Z definite first second (primitive f first)
    exact ⟨exact_divisions, reduced⟩
  · exact compose_comm Z definite primitive first second
  · exact compose_assoc Z definite primitive first second third
  · have right := compose_identity Z definite primitive first
    exact ⟨right, (compose_comm Z definite primitive neutral first).trans right⟩
  · obtain ⟨opposite, -⟩ := inverse_spec definite first (primitive f first)
    have right := compose_inverse Z definite primitive first
    exact ⟨opposite, right, (compose_comm Z definite primitive opposite first).trans right⟩

/-- The coefficients of the extended algorithm of Euclid. -/
def euclid : BigGCD where
  coefficients a b := (Int.gcdA a b, Int.gcdB a b)
  bezout a b _ _ := (Int.gcd_eq_gcd_ab a b).symm

/-- The law for the discriminant `-23`, on which the class of `(2, 1, 3)` has order three. -/
theorem class_group_law_23 :
    compose euclid (-23) (compose euclid (-23) ⟨2, 1, 3⟩ ⟨2, 1, 3⟩) ⟨2, 1, 3⟩ =
      compose euclid (-23) ⟨2, 1, 3⟩ (compose euclid (-23) ⟨2, 1, 3⟩ ⟨2, 1, 3⟩) := by
  have reduced : IsReduced (-(23 : ℕ)) ⟨2, 1, 3⟩ :=
    ⟨by decide, by unfold Primitive; decide, by decide, by decide, by decide, by decide, by decide⟩
  exact (class_group_law euclid (by norm_num) (by decide)).2.2.1 _ _ _ reduced reduced reduced

example : compose euclid (-23) ⟨2, 1, 3⟩ ⟨2, 1, 3⟩ = ⟨2, -1, 3⟩ := by decide +kernel

end Law

end Obscura.Group
