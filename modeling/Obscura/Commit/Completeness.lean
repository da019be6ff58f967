import Mathlib.Data.List.GetD
import Obscura.Commit.AnonSpend

/-! # Completeness of the anonymous-spend proof

The curve group is a group of prime order and a torsion part of order eight. Scalars are
residues of the prime order, and a scalar acts on the torsion part by its canonical
representative, so the exponents of a proof cancel there only by accident. A member with
a torsion component breaks the proof of an honest owner for some coins, unless its index
is the bitwise complement of the owner's: the polynomial of that index is constant, and
the two sides use the same representative.
-/

namespace Obscura.Commit

open OneOfMany Polynomial

/-- The prime-order part and the torsion part. -/
abbrev Curve (L : Nat) : Type := ZMod L × ZMod 8

/-- No torsion component. -/
def InPrimeOrder {L : Nat} (P : Curve L) : Prop := P.2 = 0

/-- The base points lie in the prime-order part. -/
structure Generators.Prime {L : Nat} (gens : Generators (Curve L)) : Prop where
  G : InPrimeOrder gens.G
  hPoint : InPrimeOrder gens.hPoint
  uGen : InPrimeOrder gens.uGen
  tag : gens.uGen.1 ≠ 0

section Coordinates

variable {L : Nat}

theorem scalarMult_fst [NeZero L] (k : ZMod L) (P : Curve L) :
    (scalarMult k P).1 = k * P.1 := by
  rw [scalarMult, Prod.smul_fst, nsmul_eq_mul, ZMod.natCast_zmod_val]

theorem scalarMult_snd (k : ZMod L) (P : Curve L) :
    (scalarMult k P).2 = (k.val : ZMod 8) * P.2 := by
  rw [scalarMult, Prod.smul_snd, nsmul_eq_mul]

theorem multByCofactor_fst (P : Curve L) : (multByCofactor P).1 = 8 * P.1 := by
  rw [multByCofactor, Prod.smul_fst, nsmul_eq_mul]
  rfl

theorem multByCofactor_snd (P : Curve L) : (multByCofactor P).2 = 0 := by
  rw [multByCofactor, Prod.smul_snd, nsmul_eq_mul]
  exact zero_mul _

theorem scalarMult_prime {P : Curve L} (prime : InPrimeOrder P) (k : ZMod L) :
    (scalarMult k P).2 = 0 := by
  rw [scalarMult_snd, prime, mul_zero]

theorem commScalar_prime {gens : Generators (Curve L)} (prime : gens.Prime) (v r : ZMod L) :
    (commScalar gens v r).2 = 0 := by
  rw [commScalar, Prod.snd_add, scalarMult_prime prime.hPoint, scalarMult_prime prime.G, add_zero]

end Coordinates

/-! ## The coefficients -/

section Coefficients

variable {L : Nat}

/-- The coefficients of a product with a linear factor. -/
theorem getD_polyMulLinear (p : List (ZMod L)) (c0 c1 : ZMod L) (k : Nat) :
    (polyMulLinear p c0 c1).getD k 0 =
      p.getD k 0 * c0 + (if k = 0 then 0 else p.getD (k - 1) 0 * c1) := by
  rw [polyMulLinear]
  by_cases inside : k < p.length + 1
  · rw [List.getD_eq_getElem _ _ (by simpa using inside), List.getElem_zipWith]
    congr 1
    · by_cases low : k < p.length
      · rw [List.getElem_append_left (by simpa using low), List.getElem_map,
          List.getD_eq_getElem _ _ low]
      · rw [List.getElem_append_right (by simpa using low), List.getD_eq_default _ _ (by omega),
          zero_mul, List.getElem_singleton]
    · cases k with
      | zero => rfl
      | succ k =>
        rw [List.getElem_cons_succ, List.getElem_map, if_neg (Nat.succ_ne_zero k),
          Nat.add_sub_cancel, List.getD_eq_getElem _ _ (by omega)]
  · rw [List.getD_eq_default _ _ (by simp; omega), List.getD_eq_default _ _ (by omega), zero_mul,
      zero_add, if_neg (by omega), List.getD_eq_default _ _ (by omega), zero_mul]

theorem getD_indexPoly [Fact L.Prime] (lj aj : Nat → ZMod L) (m i k : Nat) :
    (indexPoly lj aj m i).getD k 0 = (selector lj aj m i).coeff k := by
  induction m generalizing k with
  | zero =>
    cases k with
    | zero => simp [indexPoly, selector]
    | succ k => simp [indexPoly, selector, coeff_one]
  | succ m ih =>
    have step (c0 c1 : ZMod L) : (polyMulLinear (indexPoly lj aj m i) c0 c1).getD k 0 =
        (selector lj aj m i * (C c1 * X + C c0)).coeff k := by
      rw [getD_polyMulLinear, ih, mul_add, coeff_add, coeff_mul_C, add_comm]
      congr 1
      rw [← mul_assoc, mul_right_comm, coeff_mul_C]
      cases k with
      | zero => simp
      | succ k => rw [if_neg (Nat.succ_ne_zero k), Nat.add_sub_cancel, ih, coeff_mul_X]
    rw [indexPoly, List.range_succ, List.foldl_append, ← indexPoly, selector,
      Finset.prod_range_succ, ← selector]
    simp only [List.foldl_cons, List.foldl_nil]
    split_ifs
    · exact step _ _
    · exact step _ _

end Coefficients

/-! ## What torsion leaves -/

/-- The digits of a hidden index. -/
def digitOfIndex (L l j : Nat) : ZMod L := if l.testBit j then 1 else 0

/-- Two indices agree in a digit. -/
def SharesDigit (m i l : Nat) : Prop := ∃ j < m, i.testBit j = l.testBit j

section Residues

variable {L : Nat} [Fact L.Prime]

/-- What one unit of torsion in the member of an index leaves in the equation of its ring: the
representative of its selector less those in the commitments of the prover. -/
noncomputable def residue (l : Nat) (aj : Nat → ZMod L) (xc : ZMod L) (m i : Nat) : ZMod 8 :=
  (((selector (digitOfIndex L l) aj m i).eval xc).val : ZMod 8) -
    ∑ k ∈ Finset.range m, ((xc ^ k).val : ZMod 8) *
      (((selector (digitOfIndex L l) aj m i).coeff k).val : ZMod 8)

variable {aj : Nat → ZMod L} {xc : ZMod L} {m i l : Nat}

theorem factor_differs {j : Nat} (differ : i.testBit j ≠ l.testBit j) :
    (if i.testBit j then C (digitOfIndex L l j) * X + C (aj j)
      else C (1 - digitOfIndex L l j) * X + C (-aj j)) =
      C ((if i.testBit j then 1 else -1) * aj j) := by
  unfold digitOfIndex
  cases own : l.testBit j with
  | true =>
    have zero : i.testBit j = false := by
      rw [own] at differ
      exact Bool.eq_false_of_not_eq_true differ
    simp [zero]
  | false =>
    have one : i.testBit j = true := by
      rw [own] at differ
      exact Bool.eq_true_of_not_eq_false differ
    simp [one]

theorem factor_shared {j : Nat} (shared : i.testBit j = l.testBit j) (still : aj j = 0) :
    (if i.testBit j then C (digitOfIndex L l j) * X + C (aj j)
      else C (1 - digitOfIndex L l j) * X + C (-aj j)) = X := by
  unfold digitOfIndex
  rw [← shared, still]
  cases i.testBit j with
  | true => simp
  | false => simp

theorem residue_monomial {k : Nat} {c : ZMod L} (below : k < m)
    (shape : selector (digitOfIndex L l) aj m i = X ^ k * C c) :
    residue l aj xc m i =
      ((xc ^ k * c).val : ZMod 8) - ((xc ^ k).val : ZMod 8) * (c.val : ZMod 8) := by
  rw [residue, shape, Finset.sum_eq_single k]
  · rw [eval_mul, eval_pow, eval_X, eval_C, coeff_mul_C, coeff_X_pow_self, one_mul]
  · intro other _ apart
    rw [coeff_mul_C, coeff_X_pow, if_neg apart, zero_mul, ZMod.val_zero, Nat.cast_zero, mul_zero]
  · intro outside
    exact absurd (Finset.mem_range.mpr below) outside

theorem residue_complement (positive : 0 < m) (apart : ¬ SharesDigit m i l) :
    residue l aj xc m i = 0 := by
  have shape : selector (digitOfIndex L l) aj m i =
      X ^ 0 * C (∏ j ∈ Finset.range m, (if i.testBit j then 1 else -1) * aj j) := by
    rw [pow_zero, one_mul, map_prod, selector]
    apply Finset.prod_congr rfl
    intro j inside
    exact factor_differs fun same => apart ⟨j, Finset.mem_range.mp inside, same⟩
  rw [residue_monomial positive shape, pow_zero, one_mul, ZMod.val_one, Nat.cast_one, one_mul,
    sub_self]

theorem residue_silent {j : Nat} (below : j < m) (differ : i.testBit j ≠ l.testBit j)
    (still : aj j = 0) : residue l aj xc m i = 0 := by
  have shape : selector (digitOfIndex L l) aj m i = 0 := by
    rw [selector]
    apply Finset.prod_eq_zero (Finset.mem_range.mpr below)
    rw [factor_differs differ, still, mul_zero, C_0]
  rw [residue, shape]
  simp

/-! ### Coins that expose torsion -/

/-- The digits in which two indices differ. -/
def differing (m i l : Nat) : Finset Nat :=
  (Finset.range m).filter fun j => i.testBit j ≠ l.testBit j

/-- The offsets that make the polynomial of an index a monomial with a given coefficient. -/
def exposing (m i l first : Nat) (c : ZMod L) (j : Nat) : ZMod L :=
  if j ∈ differing m i l then
    (if i.testBit j then 1 else -1) * (if j = first then c else 1)
  else 0

/-- At the exposing choice the selector is a monomial. -/
theorem selector_exposing {first : Nat} (inside : first ∈ differing m i l) (c : ZMod L) :
    selector (digitOfIndex L l) (exposing m i l first c) m i =
      X ^ ((Finset.range m).filter fun j => ¬ i.testBit j ≠ l.testBit j).card * C c := by
  rw [selector, ← Finset.prod_filter_mul_prod_filter_not _ fun j => i.testBit j ≠ l.testBit j,
    mul_comm]
  congr 1
  · rw [← Finset.prod_const]
    apply Finset.prod_congr rfl
    intro j member
    obtain ⟨-, shared⟩ := Finset.mem_filter.mp member
    refine factor_shared (not_not.mp shared) (if_neg fun differ => ?_)
    exact shared (Finset.mem_filter.mp differ).2
  · have factor : ∀ j ∈ differing m i l,
        (if i.testBit j then C (digitOfIndex L l j) * X + C (exposing m i l first c j)
          else C (1 - digitOfIndex L l j) * X + C (-exposing m i l first c j)) =
          if j = first then C c else 1 := by
      intro j member
      rw [factor_differs (Finset.mem_filter.mp member).2, exposing, if_pos member, ← mul_assoc]
      have square : ((if i.testBit j then 1 else -1) * (if i.testBit j then 1 else -1) : ZMod L) =
          1 := by
        split_ifs
        · exact one_mul 1
        · exact neg_one_mul (-1) |>.trans (neg_neg 1)
      rw [square, one_mul]
      split_ifs
      · rfl
      · exact C_1
    rw [← differing, Finset.prod_congr rfl factor, Finset.prod_ite_eq' _ _ fun _ => C c,
      if_pos inside]

theorem wraps_once {k : Nat} (positive : 0 < k) (small : 2 ^ k < L) :
    ∃ c : ZMod L, (((2 : ZMod L) ^ k * c).val : ZMod 8) -
      (((2 : ZMod L) ^ k).val : ZMod 8) * (c.val : ZMod 8) = -(L : ZMod 8) := by
  have two : 2 ≤ 2 ^ k := Nat.le_self_pow (Nat.ne_of_gt positive) 2
  have half : L / 2 ^ k ≤ L / 2 := Nat.div_le_div_left two (by decide)
  have division := Nat.div_add_mod L (2 ^ k)
  have remainder := Nat.mod_lt L (Nat.two_pow_pos k)
  have odd : L % 2 ^ k ≠ 0 := by
    intro whole
    have divides := (Nat.prime_dvd_prime_iff_eq Nat.prime_two (Fact.out : L.Prime)).mp
      (dvd_trans (dvd_pow_self 2 (Nat.ne_of_gt positive)) (Nat.dvd_of_mod_eq_zero whole))
    omega
  refine ⟨((L / 2 ^ k + 1 : Nat) : ZMod L), ?_⟩
  have power : (2 : ZMod L) ^ k = ((2 ^ k : Nat) : ZMod L) := by push_cast; rfl
  have product : 2 ^ k * (L / 2 ^ k + 1) = L + (2 ^ k - L % 2 ^ k) := by
    rw [Nat.mul_add, Nat.mul_one]
    omega
  rw [power, ← Nat.cast_mul, product, Nat.cast_add, ZMod.natCast_self, zero_add,
    ZMod.val_natCast_of_lt (by omega), ZMod.val_natCast_of_lt small,
    ZMod.val_natCast_of_lt (by omega), ← Nat.cast_mul, product, Nat.cast_add]
  ring

/-- Among the members with torsion that share a digit with the owner there is one whose differing
digits are fewest; the coins that expose it silence every other. -/
theorem exists_residue (small : 2 ^ m < L) (inside : l < 2 ^ m) {torsion : Nat → ZMod 8}
    (own : torsion l = 0)
    (bad : ∃ i < 2 ^ m, SharesDigit m i l ∧ torsion i ≠ 0) :
    ∃ (aj : Nat → ZMod L) (xc : ZMod L),
      ∑ i ∈ Finset.range (2 ^ m), residue l aj xc m i * torsion i ≠ 0 := by
  classical
  obtain ⟨i₀, member, fewest⟩ := Finset.exists_min_image
    ((Finset.range (2 ^ m)).filter fun i => SharesDigit m i l ∧ torsion i ≠ 0)
    (fun i => (differing m i l).card) (by
      obtain ⟨i, below, facts⟩ := bad
      exact ⟨i, Finset.mem_filter.mpr ⟨Finset.mem_range.mpr below, facts⟩⟩)
  obtain ⟨below₀, shares₀, torsion₀⟩ := Finset.mem_filter.mp member
  rw [Finset.mem_range] at below₀
  have equalOf {i j : Nat} (belowI : i < 2 ^ m) (belowJ : j < 2 ^ m)
      (digits : ∀ d < m, i.testBit d = j.testBit d) : i = j := by
    apply Nat.eq_of_testBit_eq
    intro d
    by_cases low : d < m
    · exact digits d low
    · have large := Nat.pow_le_pow_right (n := 2) (by decide) (Nat.le_of_not_lt low)
      rw [Nat.testBit_lt_two_pow (belowI.trans_le large),
        Nat.testBit_lt_two_pow (belowJ.trans_le large)]
  obtain ⟨first, differ⟩ : ∃ first, first ∈ differing m i₀ l := by
    by_contra none
    push Not at none
    have same : i₀ = l := equalOf below₀ inside fun d low => by
      by_contra apart
      exact none d (Finset.mem_filter.mpr ⟨Finset.mem_range.mpr low, apart⟩)
    exact torsion₀ (same ▸ own)
  have split := Finset.card_filter_add_card_filter_not (s := Finset.range m)
    fun j => i₀.testBit j ≠ l.testBit j
  rw [Finset.card_range] at split
  have some : 0 < (differing m i₀ l).card := Finset.card_pos.mpr ⟨first, differ⟩
  have rest : 0 < ((Finset.range m).filter fun j => ¬ i₀.testBit j ≠ l.testBit j).card := by
    obtain ⟨j, low, same⟩ := shares₀
    exact Finset.card_pos.mpr ⟨j, Finset.mem_filter.mpr ⟨Finset.mem_range.mpr low,
      not_not.mpr same⟩⟩
  obtain ⟨c, wraps⟩ := wraps_once rest (lt_of_le_of_lt
    (Nat.pow_le_pow_right (by decide) (by omega)) small)
  refine ⟨exposing m i₀ l first c, 2, ?_⟩
  rw [Finset.sum_eq_single i₀]
  · have low : ((Finset.range m).filter fun j => ¬ i₀.testBit j ≠ l.testBit j).card < m := by
      rw [differing] at some
      omega
    rw [residue_monomial low (selector_exposing differ c), wraps, neg_mul, neg_ne_zero]
    have odd : Nat.Coprime L 8 := by
      have two : L ≠ 2 := by
        have atLeast : 1 ≤ 2 ^ m := Nat.one_le_two_pow
        have positive : m ≠ 0 := by omega
        have even : 2 ≤ 2 ^ m := Nat.le_self_pow positive 2
        omega
      have apart := (Nat.coprime_primes (Fact.out : L.Prime) Nat.prime_two).mpr two
      exact Nat.Coprime.pow_right 3 apart
    intro zero
    exact torsion₀ ((((ZMod.isUnit_iff_coprime L 8).mpr odd).mul_right_eq_zero).mp zero)
  · intro i belowI apart
    rw [Finset.mem_range] at belowI
    by_cases silent : ∃ j ∈ differing m i l, j ∉ differing m i₀ l
    · obtain ⟨j, differs, outside⟩ := silent
      obtain ⟨low, unequal⟩ := Finset.mem_filter.mp differs
      rw [residue_silent (Finset.mem_range.mp low) unequal (if_neg outside), zero_mul]
    · push Not at silent
      have fewer : (differing m i l).card < (differing m i₀ l).card := by
        refine Finset.card_lt_card ⟨silent, fun all => apart ?_⟩
        refine equalOf belowI below₀ fun d low => ?_
        have both : d ∈ differing m i l ↔ d ∈ differing m i₀ l :=
          ⟨fun inside => silent d inside, fun inside => all inside⟩
        simp only [differing, Finset.mem_filter, Finset.mem_range, low, true_and] at both
        revert both
        cases i.testBit d <;> cases i₀.testBit d <;> cases l.testBit d <;> simp
      have shares : SharesDigit m i l := by
        obtain ⟨j, low, same⟩ := shares₀
        refine ⟨j, low, ?_⟩
        by_contra differs
        exact (Finset.mem_filter.mp (silent j (Finset.mem_filter.mpr
          ⟨Finset.mem_range.mpr low, differs⟩))).2 same
      have harmless : torsion i = 0 := by
        by_contra bad
        have least := fewest i (Finset.mem_filter.mpr ⟨Finset.mem_range.mpr belowI, shares, bad⟩)
        omega
      rw [harmless, mul_zero]
  · intro outside
    exact absurd (Finset.mem_range.mpr below₀) outside

theorem sum_residue_zero {torsion : Nat → ZMod 8} (inside : l < 2 ^ m) (own : torsion l = 0)
    (clean : ∀ i < 2 ^ m, SharesDigit m i l → torsion i = 0) :
    ∑ i ∈ Finset.range (2 ^ m), residue l aj xc m i * torsion i = 0 := by
  apply Finset.sum_eq_zero
  intro i below
  rw [Finset.mem_range] at below
  by_cases shares : SharesDigit m i l
  · rw [clean i below shares, mul_zero]
  · cases m with
    | zero =>
      obtain rfl : i = l := by omega
      rw [own, mul_zero]
    | succ m => rw [residue_complement (Nat.succ_pos m) shares, zero_mul]

end Residues

/-! ## The honest proof -/

section Honest

variable {L : Nat} [Fact L.Prime] {gens : Generators (Curve L)}

/-- The secrets `x` and `d` open the members of both rings at an index. -/
structure Owns (gens : Generators (Curve L)) (ownRing valRing : List (Curve L)) (m l : Nat)
    (x d : ZMod L) : Prop where
  ownSize : ownRing.length = 2 ^ m
  valSize : valRing.length = 2 ^ m
  inside : l < 2 ^ m
  key : ownRing.getD l 0 = scalarMult x gens.G
  value : valRing.getD l 0 = scalarMult d gens.G

/-- The proof that the owner builds passes, whatever the challenge hash and the coins are. -/
def Completes (gens : Generators (Curve L)) (ownRing valRing : List (Curve L)) (l : Nat)
    (x d : ZMod L) : Prop :=
  ∀ (anonChallenge : Challenge L (Curve L)) (coins : Coins L), ∃ pf T,
    proveAnonSpend gens anonChallenge coins ownRing valRing l x d = .ok (pf, T) ∧
      verifyAnonSpend gens anonChallenge ownRing valRing T pf = true

variable {coins : Coins L} {xc : ZMod L} {m l : Nat} {x d : ZMod L}

theorem getD_map_range {α : Type} (term : Nat → α) (default : α) {k : Nat} (below : k < m) :
    ((List.range m).map term).getD k default = term k := by
  rw [List.getD_eq_getElem _ _ (by simpa using below), List.getElem_map, List.getElem_range]

theorem selectorAt_respond (i : Nat) :
    selectorAt (respond coins l m x d xc).f xc m i =
      (selector (digitOfIndex L l) coins.aj m i).eval xc := by
  rw [selectorAt_eq, eval_selector]
  apply Finset.prod_congr rfl
  intro j below
  have digit : (respond coins l m x d xc).f.getD j 0 =
      digitOfIndex L l j * xc + coins.aj j :=
    getD_map_range _ _ (Finset.mem_range.mp below)
  rw [digit]

theorem lastResponse_eq (secret : ZMod L) (rho : Nat → ZMod L) :
    lastResponse secret rho xc m =
      secret * xc ^ m - ∑ k ∈ Finset.range m, rho k * xc ^ k :=
  foldl_sub _ _ _

/-- The equation of a ring holds in the prime-order part, so it holds when the residues cancel. -/
theorem ring_equation (prime : gens.Prime) {ring : List (Curve L)} {secret : ZMod L}
    {rho : Nat → ZMod L} (inside : l < 2 ^ m) (member : ring.getD l 0 = scalarMult secret gens.G) :
    ∑ i ∈ Finset.range (2 ^ m),
          scalarMult (selectorAt (respond coins l m x d xc).f xc m i) (ring.getD i 0) -
        ∑ k ∈ Finset.range m, scalarMult (xc ^ k) (((List.range m).map fun k =>
          (polySumsOverRing ring (digitOfIndex L l) coins.aj m (2 ^ m)).getD k 0 +
            scalarMult (rho k) gens.G).getD k 0) =
        scalarMult (lastResponse secret rho xc m) gens.G ↔
      ∑ i ∈ Finset.range (2 ^ m), residue l coins.aj xc m i * (ring.getD i 0).2 = 0 := by
  have commitments : ∀ k ∈ Finset.range m,
      scalarMult (xc ^ k) (((List.range m).map fun k =>
        (polySumsOverRing ring (digitOfIndex L l) coins.aj m (2 ^ m)).getD k 0 +
          scalarMult (rho k) gens.G).getD k 0) =
      scalarMult (xc ^ k) (∑ i ∈ Finset.range (2 ^ m),
        scalarMult ((selector (digitOfIndex L l) coins.aj m i).coeff k) (ring.getD i 0) +
          scalarMult (rho k) gens.G) := by
    intro k below
    rw [getD_map_range _ _ (Finset.mem_range.mp below), polySumsOverRing,
      getD_map_range _ _ (Finset.mem_range.mp below), foldl_add, zero_add]
    simp only [getD_indexPoly]
  rw [Finset.sum_congr rfl commitments]
  simp only [selectorAt_respond]
  have front : (∑ i ∈ Finset.range (2 ^ m),
        scalarMult ((selector (digitOfIndex L l) coins.aj m i).eval xc) (ring.getD i 0) -
      ∑ k ∈ Finset.range m, scalarMult (xc ^ k) (∑ i ∈ Finset.range (2 ^ m),
        scalarMult ((selector (digitOfIndex L l) coins.aj m i).coeff k) (ring.getD i 0) +
          scalarMult (rho k) gens.G)).1 =
      (scalarMult (lastResponse secret rho xc m) gens.G).1 := by
    have value : ∀ i ∈ Finset.range (2 ^ m),
        (selector (digitOfIndex L l) coins.aj m i).eval xc * (ring.getD i 0).1 =
          ∑ k ∈ Finset.range m, xc ^ k * ((selector (digitOfIndex L l) coins.aj m i).coeff k *
            (ring.getD i 0).1) + if i = l then xc ^ m * (ring.getD i 0).1 else 0 := by
      intro i below
      have top : (selector (digitOfIndex L l) coins.aj m i).coeff m = if i = l then 1 else 0 :=
        coeff_selector_index inside (Finset.mem_range.mp below) fun _ _ => rfl
      rw [eval_eq_sum_range' (Nat.lt_succ_of_le (natDegree_selector_le _ _ _ _)),
        Finset.sum_range_succ, top, add_mul, Finset.sum_mul]
      congr 1
      · apply Finset.sum_congr rfl
        intro k _
        ring
      · split_ifs
        · rw [one_mul]
        · rw [zero_mul, zero_mul]
    simp only [Prod.fst_sub, Prod.fst_sum, Prod.fst_add, scalarMult_fst, lastResponse_eq]
    rw [Finset.sum_congr rfl value, Finset.sum_add_distrib, Finset.sum_ite_eq',
      if_pos (Finset.mem_range.mpr inside), member, scalarMult_fst, Finset.sum_comm, sub_mul,
      Finset.sum_mul]
    simp only [mul_add, Finset.sum_add_distrib, Finset.mul_sum]
    rw [add_sub_add_left_eq_sub]
    congr 1
    · ring
    · apply Finset.sum_congr rfl
      intro k _
      ring
  have back : (∑ i ∈ Finset.range (2 ^ m),
        scalarMult ((selector (digitOfIndex L l) coins.aj m i).eval xc) (ring.getD i 0) -
      ∑ k ∈ Finset.range m, scalarMult (xc ^ k) (∑ i ∈ Finset.range (2 ^ m),
        scalarMult ((selector (digitOfIndex L l) coins.aj m i).coeff k) (ring.getD i 0) +
          scalarMult (rho k) gens.G)).2 =
      ∑ i ∈ Finset.range (2 ^ m), residue l coins.aj xc m i * (ring.getD i 0).2 := by
    have base : gens.G.2 = 0 := prime.G
    simp only [Prod.snd_sub, Prod.snd_sum, Prod.snd_add, scalarMult_snd, residue, sub_mul,
      Finset.sum_sub_distrib, base, mul_zero, add_zero, Finset.mul_sum, Finset.sum_mul]
    rw [Finset.sum_comm]
    congr 1
    apply Finset.sum_congr rfl
    intro i _
    apply Finset.sum_congr rfl
    intro k _
    ring
  rw [Prod.ext_iff, front, back, scalarMult_prime prime.G]
  exact and_iff_right rfl

/-- The proof of the owner under a challenge. -/
def honest (gens : Generators (Curve L)) (coins : Coins L) (ownRing valRing : List (Curve L))
    (l m : Nat) (x d xc : ZMod L) : AnonSpendProof L (Curve L) :=
  { toFirstMessage := firstMessage gens coins ownRing valRing l m (2 ^ m)
    toResponse := respond coins l m x d xc
    m := m }

variable {ownRing valRing : List (Curve L)}

theorem proveAnonSpend_owner (owns : Owns gens ownRing valRing m l x d)
    (anonChallenge : Challenge L (Curve L)) (coins : Coins L) :
    proveAnonSpend gens anonChallenge coins ownRing valRing l x d =
      .ok (honest gens coins ownRing valRing l m x d (anonChallenge ownRing valRing
        (scalarMult x gens.uGen) (firstMessage gens coins ownRing valRing l m (2 ^ m))),
        scalarMult x gens.uGen) := by
  have size : ¬ (ownRing.length = 0 ∨ ownRing.length &&& (ownRing.length - 1) ≠ 0) :=
    powerOfTwo_iff.mpr ⟨m, owns.ownSize⟩
  have same : ¬ valRing.length ≠ ownRing.length :=
    not_not.mpr (owns.valSize.trans owns.ownSize.symm)
  have low : ¬ l ≥ ownRing.length := by
    rw [owns.ownSize]
    exact Nat.not_le.mpr owns.inside
  unfold proveAnonSpend
  dsimp only
  rw [if_neg size, if_neg same, if_neg low, owns.ownSize, trailingZeros_two_pow]
  rfl

/-- The equations of one digit. -/
theorem honest_digit (prime : gens.Prime) {j : Nat} (below : j < m) :
    scalarMult xc ((honest gens coins ownRing valRing l m x d xc).cl.getD j 0) +
        (honest gens coins ownRing valRing l m x d xc).ca.getD j 0 =
      commScalar gens ((honest gens coins ownRing valRing l m x d xc).f.getD j 0)
        ((honest gens coins ownRing valRing l m x d xc).za.getD j 0) ∧
    scalarMult (xc - (honest gens coins ownRing valRing l m x d xc).f.getD j 0)
          ((honest gens coins ownRing valRing l m x d xc).cl.getD j 0) +
        (honest gens coins ownRing valRing l m x d xc).cb.getD j 0 =
      commScalar gens 0 ((honest gens coins ownRing valRing l m x d xc).zb.getD j 0) := by
  have binary : digitOfIndex L l j * digitOfIndex L l j = digitOfIndex L l j := by
    unfold digitOfIndex
    split_ifs
    · exact one_mul 1
    · exact zero_mul 0
  simp only [honest, firstMessage, respond, getD_map_range _ _ below]
  rw [← digitOfIndex]
  refine ⟨Prod.ext ?_ ?_, Prod.ext ?_ ?_⟩
  · simp only [commScalar, Prod.fst_add, scalarMult_fst]
    ring
  · rw [Prod.snd_add, scalarMult_prime (commScalar_prime prime _ _), commScalar_prime prime,
      commScalar_prime prime, add_zero]
  · simp only [commScalar, Prod.fst_add, scalarMult_fst]
    linear_combination (-xc * gens.hPoint.1) * binary
  · rw [Prod.snd_add, scalarMult_prime (commScalar_prime prime _ _), commScalar_prime prime,
      commScalar_prime prime, add_zero]

/-- The honest proof is accepted exactly when what is lost modulo 8 adds up to nothing. -/
theorem honest_accepted_iff (prime : gens.Prime) (owns : Owns gens ownRing valRing m l x d)
    (nonzero : x ≠ 0) (odd : 2 < L) :
    Accepted gens m xc ownRing valRing (scalarMult x gens.uGen)
        (honest gens coins ownRing valRing l m x d xc) ↔
      ∑ i ∈ Finset.range (2 ^ m), residue l coins.aj xc m i * (ownRing.getD i 0).2 = 0 ∧
        ∑ i ∈ Finset.range (2 ^ m), residue l coins.aj xc m i * (valRing.getD i 0).2 = 0 := by
  constructor
  · intro accepted
    exact ⟨(ring_equation prime owns.inside owns.key).mp accepted.own,
      (ring_equation prime owns.inside owns.value).mp accepted.value⟩
  · rintro ⟨own, value⟩
    constructor
    case ownSize => exact owns.ownSize
    case valSize => exact owns.valSize
    case tag =>
      have eight : (8 : ZMod L) ≠ 0 := by
        rw [← Nat.cast_ofNat, Ne, ZMod.natCast_eq_zero_iff]
        intro divides
        have two := (Fact.out : L.Prime).dvd_of_dvd_pow (show L ∣ 2 ^ 3 from divides)
        have := Nat.le_of_dvd (by decide) two
        omega
      intro low
      have first := congrArg Prod.fst low
      rw [multByCofactor_fst, scalarMult_fst] at first
      exact mul_ne_zero eight (mul_ne_zero nonzero prime.tag) first
    case digits => rfl
    case lengths =>
      intro length member
      simpa [AnonSpendProof.lengths, honest, firstMessage, respond] using member
    case digit => exact fun j below => (honest_digit prime below).1
    case square => exact fun j below => (honest_digit prime below).2
    case own => exact (ring_equation prime owns.inside owns.key).mpr own
    case value => exact (ring_equation prime owns.inside owns.value).mpr value
    case image =>
      have commitments : ∀ k ∈ Finset.range m, multByCofactor (scalarMult (xc ^ k)
          ((honest gens coins ownRing valRing l m x d xc).cdt.getD k 0)) =
          multByCofactor (scalarMult (xc ^ k) (scalarMult (coins.rhoO k) gens.uGen)) := by
        intro k below
        simp only [honest, firstMessage, getD_map_range _ _ (Finset.mem_range.mp below)]
      rw [Finset.sum_congr rfl commitments]
      change _ = multByCofactor (scalarMult (lastResponse x coins.rhoO xc m) gens.uGen)
      refine Prod.ext ?_ ?_
      · simp only [Prod.fst_sub, Prod.fst_sum, multByCofactor_fst, scalarMult_fst,
          lastResponse_eq, sub_mul, mul_sub, Finset.sum_mul, Finset.mul_sum]
        congr 1
        · ring
        · apply Finset.sum_congr rfl
          intro k _
          ring
      · simp only [Prod.snd_sub, Prod.snd_sum, multByCofactor_snd, scalarMult_snd, mul_zero,
          Finset.sum_const_zero, sub_zero]

/-- The proof of an owner passes when the residues cancel in both rings. -/
theorem completes_iff_residues (prime : gens.Prime) (owns : Owns gens ownRing valRing m l x d)
    (nonzero : x ≠ 0) (odd : 2 < L) :
    Completes gens ownRing valRing l x d ↔ ∀ (aj : Nat → ZMod L) (xc : ZMod L),
      ∑ i ∈ Finset.range (2 ^ m), residue l aj xc m i * (ownRing.getD i 0).2 = 0 ∧
        ∑ i ∈ Finset.range (2 ^ m), residue l aj xc m i * (valRing.getD i 0).2 = 0 := by
  have passes (coins : Coins L) (xc : ZMod L) :
      verifyTranscript gens xc ownRing valRing (scalarMult x gens.uGen)
          (honest gens coins ownRing valRing l m x d xc) = true ↔
        ∑ i ∈ Finset.range (2 ^ m), residue l coins.aj xc m i * (ownRing.getD i 0).2 = 0 ∧
          ∑ i ∈ Finset.range (2 ^ m), residue l coins.aj xc m i * (valRing.getD i 0).2 = 0 := by
    rw [verifyTranscript_iff, ← honest_accepted_iff prime owns nonzero odd]
    constructor
    · rintro ⟨m', accepted⟩
      have same : m' = m :=
        Nat.pow_right_injective (Nat.le_refl 2) (accepted.ownSize.symm.trans owns.ownSize)
      rw [same] at accepted
      exact accepted
    · exact fun accepted => ⟨m, accepted⟩
  constructor
  · intro complete aj xc
    have chosen := complete (fun _ _ _ _ => xc)
      ⟨aj, fun _ => 0, fun _ => 0, fun _ => 0, fun _ => 0, fun _ => 0⟩
    obtain ⟨pf, T, built, passed⟩ := chosen
    rw [proveAnonSpend_owner owns] at built
    have parts := Prod.mk.inj (Except.ok.inj built)
    rw [verifyAnonSpend, ← parts.1, ← parts.2] at passed
    rw [passes] at passed
    exact passed
  · intro cancel anonChallenge coins
    refine ⟨_, _, proveAnonSpend_owner owns anonChallenge coins, ?_⟩
    rw [verifyAnonSpend]
    exact (passes coins _).mpr (cancel coins.aj _)

/-- **Completeness.** The proof of an owner passes for all coins and challenge hashes if and only
if every member that shares a digit with the owner's index lies in the prime-order part, in both
rings. -/
theorem completes_iff (prime : gens.Prime) (owns : Owns gens ownRing valRing m l x d)
    (nonzero : x ≠ 0) (odd : 2 < L) (small : 2 ^ m < L) :
    Completes gens ownRing valRing l x d ↔ ∀ i < 2 ^ m, SharesDigit m i l →
      InPrimeOrder (ownRing.getD i 0) ∧ InPrimeOrder (valRing.getD i 0) := by
  have ownPrime : (ownRing.getD l 0).2 = 0 := by
    rw [owns.key]
    exact scalarMult_prime prime.G x
  have valPrime : (valRing.getD l 0).2 = 0 := by
    rw [owns.value]
    exact scalarMult_prime prime.G d
  rw [completes_iff_residues prime owns nonzero odd]
  constructor
  · intro cancel i below shares
    constructor
    · by_contra torsion
      obtain ⟨aj, xc, exposed⟩ := @exists_residue L _ m l small owns.inside
        (fun i => (ownRing.getD i 0).2) ownPrime ⟨i, below, shares, torsion⟩
      exact exposed (cancel aj xc).1
    · by_contra torsion
      obtain ⟨aj, xc, exposed⟩ := @exists_residue L _ m l small owns.inside
        (fun i => (valRing.getD i 0).2) valPrime ⟨i, below, shares, torsion⟩
      exact exposed (cancel aj xc).2
  · intro clean aj xc
    exact ⟨sum_residue_zero owns.inside ownPrime fun i below shares => (clean i below shares).1,
      sum_residue_zero owns.inside valPrime fun i below shares => (clean i below shares).2⟩

end Honest

end Obscura.Commit
