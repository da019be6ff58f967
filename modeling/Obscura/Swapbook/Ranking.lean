import Mathlib.Data.Rat.Cast.Order
import Mathlib.Tactic.FieldSimp
import Obscura.Swapbook.PostOnly

/-! # The order of the rates

With the remainder of the division known as well as its quotient, the 128-bit arithmetic is that of
the natural numbers. The comparison of two rates is the order of the fractions they stand for, so
the ranking of a side by rate and then by identifier is a strict total order: a side can be sorted
best first in one way only.
-/

namespace Obscura.Swapbook

open Wire

/-! ## The division with its remainder -/

theorem div128by64_exact {hi lo d : UInt64} (fits : hi < d) :
    (div128by64 hi lo d).1.toNat = (hi.toNat * 2 ^ 64 + lo.toNat) / d.toNat ∧
      (div128by64 hi lo d).2.toNat = (hi.toNat * 2 ^ 64 + lo.toNat) % d.toNat := by
  rw [UInt64.lt_iff_toNat_lt] at fits
  have positive : 0 < d.toNat := Nat.zero_lt_of_lt fits
  have nonzero : d ≠ 0 := fun zero => absurd positive (by rw [zero]; decide)
  have low := lo.toNat_lt
  have word : (hi.toNat * 2 ^ 64 + lo.toNat) / d.toNat < 2 ^ 64 := by
    rw [Nat.div_lt_iff_lt_mul positive]
    calc hi.toNat * 2 ^ 64 + lo.toNat < (hi.toNat + 1) * 2 ^ 64 := by omega
      _ ≤ d.toNat * 2 ^ 64 := Nat.mul_le_mul_right _ fits
      _ = 2 ^ 64 * d.toNat := Nat.mul_comm _ _
  have start : Division.Divides (hi.toNat * 2 ^ 64 + lo.toNat) d.toNat 0 { hi, lo } :=
    ⟨positive, 0, 0, by simp, by simp, rfl⟩
  obtain ⟨proper, c, quotient, consumed, divided, _⟩ := Division.run_divides 128 start
  have rest := ((Division.step d)^[128] { hi, lo }).hi.toNat_lt
  have rest' := ((Division.step d)^[128] { hi, lo }).lo.toNat_lt
  have whole : c = hi.toNat * 2 ^ 64 + lo.toNat := by omega
  refine ⟨by rw [div128by64_eq nonzero, Nat.mod_eq_of_lt word], ?_⟩
  rw [div128by64, if_neg nonzero, ← whole, divided, Nat.mul_add_mod_self_right,
    Nat.mod_eq_of_lt proper]

/-! ## Rates as fractions -/

/-- A fraction with a denominator that is not zero. -/
structure Rate where
  num : UInt64
  den : UInt64
  positive : 0 < den

/-- The number a rate stands for. -/
def Rate.value (r : Rate) : ℚ := r.num.toNat / r.den.toNat

theorem Rate.den_pos (r : Rate) : (0 : ℚ) < r.den.toNat :=
  Nat.cast_pos.mpr (UInt64.lt_iff_toNat_lt.mp r.positive)

theorem Rate.value_lt_iff (r s : Rate) :
    r.value < s.value ↔ r.num.toNat * s.den.toNat < s.num.toNat * r.den.toNat := by
  rw [value, value, div_lt_div_iff₀ r.den_pos s.den_pos]
  norm_cast

theorem cmpRate_value (r s : Rate) :
    cmpRate r.num r.den s.num s.den = compare r.value s.value := by
  rw [cmpRate_eq]
  rcases lt_trichotomy r.value s.value with less | same | more
  · rw [compare_lt_iff_lt.mpr less, compare_lt_iff_lt]
    exact (r.value_lt_iff s).mp less
  · have atMost := (s.value_lt_iff r).not.mp same.le.not_gt
    have atLeast := (r.value_lt_iff s).not.mp same.ge.not_gt
    rw [compare_eq_iff_eq.mpr same, compare_eq_iff_eq]
    exact Nat.le_antisymm (not_lt.mp atMost) (not_lt.mp atLeast)
  · rw [compare_gt_iff_gt.mpr more, compare_gt_iff_gt]
    exact (s.value_lt_iff r).mp more

/-- The first rate compares as not above the second. -/
def Rate.AtMost (r s : Rate) : Prop := cmpRate r.num r.den s.num s.den ≠ .gt

theorem Rate.atMost_iff (r s : Rate) : r.AtMost s ↔ r.value ≤ s.value := by
  rw [AtMost, cmpRate_value, Ne, compare_gt_iff_gt, not_lt]

/-! ## The ranking of a side -/

section Ranking

variable (V : Primitives)

/-- The taker's rate of an offer. -/
def Offer.rate (o : Offer) (positive : 0 < o.getAmount) : Rate :=
  ⟨o.giveAmount, o.getAmount, positive⟩

theorem ranksBefore_iff {a c : Offer} (left : 0 < a.getAmount) (right : 0 < c.getAmount) :
    Book.ranksBefore V a c = true ↔
      (c.rate right).value < (a.rate left).value ∨
        (c.rate right).value = (a.rate left).value ∧ a.id V < c.id V := by
  have compared := cmpRate_value (a.rate left) (c.rate right)
  rw [Book.ranksBefore]
  change cmpRate a.giveAmount a.getAmount c.giveAmount c.getAmount = _ at compared
  rcases lt_trichotomy (a.rate left).value (c.rate right).value with less | same | more
  · rw [compared, compare_lt_iff_lt.mpr less]
    simp [less.not_gt, less.ne']
  · rw [compared, compare_eq_iff_eq.mpr same]
    simp [same]
  · rw [compared, compare_gt_iff_gt.mpr more]
    simp [more]

theorem ranksBefore_asymm {a c : Offer} (left : 0 < a.getAmount) (right : 0 < c.getAmount)
    (before : Book.ranksBefore V a c = true) : Book.ranksBefore V c a ≠ true := by
  intro after
  rw [ranksBefore_iff V left right] at before
  rw [ranksBefore_iff V right left] at after
  rcases before with less | ⟨same, first⟩
  · rcases after with more | ⟨same, _⟩
    · exact lt_asymm less more
    · exact less.ne' same
  · rcases after with more | ⟨_, later⟩
    · exact more.ne' same
    · exact List.lt_asymm first later

/-- The ranking is transitive. -/
theorem ranksBefore_trans {a b c : Offer} (left : 0 < a.getAmount) (middle : 0 < b.getAmount)
    (right : 0 < c.getAmount) (before : Book.ranksBefore V a b = true)
    (before' : Book.ranksBefore V b c = true) : Book.ranksBefore V a c = true := by
  rw [ranksBefore_iff V left middle] at before
  rw [ranksBefore_iff V middle right] at before'
  rw [ranksBefore_iff V left right]
  rcases before with less | ⟨same, first⟩
  · rcases before' with less' | ⟨same', _⟩
    · exact .inl (less'.trans less)
    · exact .inl (same' ▸ less)
  · rcases before' with less' | ⟨same', later⟩
    · exact .inl (same ▸ less')
    · exact .inr ⟨same'.trans same, List.lt_trans first later⟩

theorem ranksBefore_total {a c : Offer} (left : 0 < a.getAmount) (right : 0 < c.getAmount)
    (different : a.id V ≠ c.id V) :
    Book.ranksBefore V a c = true ∨ Book.ranksBefore V c a = true := by
  rw [ranksBefore_iff V left right, ranksBefore_iff V right left]
  rcases lt_trichotomy (a.rate left).value (c.rate right).value with less | same | more
  · exact .inr (.inl less)
  · by_cases first : a.id V < c.id V
    · exact .inl (.inr ⟨same.symm, first⟩)
    · refine .inr (.inr ⟨same, ?_⟩)
      refine Decidable.byContradiction fun later => different ?_
      exact List.le_antisymm (List.not_lt.mp later) (List.not_lt.mp first)
  · exact .inl (.inl more)

/-- An arrangement in which every offer ranks before the later ones. -/
def BestFirst (side : List Offer) : Prop :=
  side.Pairwise fun first later => Book.ranksBefore V first later = true

/-- What the sort leaves is best first. -/
theorem insertionSort_bestFirst {side : List Offer} (priced : ∀ o ∈ side, 0 < o.getAmount)
    (distinct : (side.map (Offer.id V)).Nodup) :
    BestFirst V (side.insertionSort fun a c => ¬ Book.ranksBefore V c a) := by
  have ordered : (side.insertionSort fun a c => ¬ Book.ranksBefore V c a).Pairwise fun a c =>
      a = c ∨ Book.ranksBefore V a c = true := by
    refine pairwise_insertionSort _ (fun o => o ∈ side) (fun a c left right notAfter => ?_)
      (fun a c _ _ after => .inr (not_not.mp after))
      (fun a b c left middle right before before' => ?_) side fun _ among => among
    · by_cases same : a.id V = c.id V
      · exact .inl (List.inj_on_of_nodup_map distinct left right same)
      · exact .inr ((ranksBefore_total V (priced a left) (priced c right) same).resolve_right
          notAfter)
    · rcases before with rfl | before
      · exact before'
      · rcases before' with rfl | before'
        · exact .inr before
        · exact .inr (ranksBefore_trans V (priced a left) (priced b middle) (priced c right)
            before before')
  have apart : (side.insertionSort fun a c => ¬ Book.ranksBefore V c a).Nodup :=
    (List.perm_insertionSort _ side).nodup_iff.mpr (List.Nodup.of_map _ distinct)
  exact (ordered.and apart).imp fun both => both.1.resolve_left both.2

theorem bestFirst_unique {left right : List Offer} (priced : ∀ o ∈ left, 0 < o.getAmount)
    (same : left.Perm right) (leftSorted : BestFirst V left) (rightSorted : BestFirst V right) :
    left = right := by
  refine same.eq_of_pairwise (fun a c among among' before after => ?_) leftSorted rightSorted
  have right := priced c (same.mem_iff.mpr among')
  exact absurd after (ranksBefore_asymm V (priced a among) right before)

theorem side_priced (b : Book) (now : Int) (giveAsset getAsset : Bytes) :
    ∀ o ∈ (b.matchingOffersLocked V now giveAsset getAsset).1, 0 < o.getAmount := by
  intro o member
  simp only [Book.matchingOffersLocked, List.mem_insertionSort, List.mem_filter,
    Bool.and_eq_true, decide_eq_true_eq] at member
  exact UInt64.pos_iff_ne_zero.mpr member.2.2

theorem side_bestFirst {b : Book}
    (filed : ∀ (id : Hash) (o : Offer), b.offers[id]? = some o → o.id V = id)
    (now : Int) (giveAsset getAsset : Bytes) :
    BestFirst V (b.matchingOffersLocked V now giveAsset getAsset).1 := by
  have priced := side_priced V b now giveAsset getAsset
  have distinct := side_distinct filed now giveAsset getAsset
  unfold Book.matchingOffersLocked at priced distinct ⊢
  dsimp only at priced distinct ⊢
  have sorted := List.perm_insertionSort (fun a c => ¬ Book.ranksBefore V c a)
    (((b.pruneLocked now).offers.toList.map Prod.snd).filter fun o : Offer =>
      o.giveAsset = getAsset && o.getAsset = giveAsset && o.giveAmount ≠ 0 && o.getAmount ≠ 0)
  refine insertionSort_bestFirst V (fun o among => priced o (sorted.mem_iff.mpr among)) ?_
  exact (sorted.map _).nodup_iff.mp distinct

theorem run_bestFirst {calls : List Call} {answers : List Answer} {d : Desk}
    (ran : Desk.run V {} calls = some (answers, d)) (now : Int) (giveAsset getAsset : Bytes) :
    BestFirst V (d.book.matchingOffersLocked V now giveAsset getAsset).1 := by
  have sound : d.Sound V fun _ => True :=
    Desk.sound_empty.run (fun _ _ _ _ => trivial) ran
  exact side_bestFirst V (fun id o found => (sound.listed id o found).2.2) now giveAsset getAsset

/-- The arithmetic under the order book is exact: products and quotients are those of the natural
numbers, the comparison is the order of the fractions, and a side has exactly one best-first
arrangement, which is the one every reachable book walks. -/
theorem rates_exact :
    (∀ a b : UInt64,
      (mul64 a b).1.toNat * 2 ^ 64 + (mul64 a b).2.toNat = a.toNat * b.toNat) ∧
    (∀ hi lo d : UInt64, 0 < d → hi < d →
      (div128by64 hi lo d).1.toNat = (hi.toNat * 2 ^ 64 + lo.toNat) / d.toNat ∧
        (div128by64 hi lo d).2.toNat = (hi.toNat * 2 ^ 64 + lo.toNat) % d.toNat) ∧
    (∀ a b c : UInt64, 0 < c → a.toNat * b.toNat / c.toNat < 2 ^ 64 →
      (mulDivFloor a b c).toNat = a.toNat * b.toNat / c.toNat) ∧
    (∀ r s : Rate, cmpRate r.num r.den s.num s.den = compare r.value s.value) ∧
    (∀ r : Rate, r.AtMost r) ∧ (∀ r s : Rate, r.AtMost s ∨ s.AtMost r) ∧
    (∀ r s t : Rate, r.AtMost s → s.AtMost t → r.AtMost t) ∧
    (∀ side : List Offer, (∀ o ∈ side, 0 < o.getAmount) → (side.map (Offer.id V)).Nodup →
      ∃! sorted : List Offer, sorted.Perm side ∧ BestFirst V sorted) ∧
    (∀ (calls : List Call) (answers : List Answer) (d : Desk),
      Desk.run V {} calls = some (answers, d) → ∀ (now : Int) (giveAsset getAsset : Bytes),
        BestFirst V (d.book.matchingOffersLocked V now giveAsset getAsset).1) := by
  refine ⟨mul64_eq, fun hi lo d _ fits => div128by64_exact fits, fun a b c positive fits => ?_,
    cmpRate_value, fun r => ?_, fun r s => ?_, fun r s t first second => ?_,
    fun side priced distinct => ?_, fun calls answers d ran => run_bestFirst V ran⟩
  · exact mulDivFloor_eq (UInt64.pos_iff_ne_zero.mp positive) fits
  · exact (r.atMost_iff r).mpr le_rfl
  · rw [Rate.atMost_iff, Rate.atMost_iff]
    exact le_total _ _
  · rw [Rate.atMost_iff] at first second ⊢
    exact first.trans second
  · refine ⟨_, ⟨List.perm_insertionSort _ side, insertionSort_bestFirst V priced distinct⟩, ?_⟩
    rintro other ⟨arranged, sorted⟩
    refine bestFirst_unique V (fun o among => priced o (arranged.mem_iff.mp among)) ?_ sorted
      (insertionSort_bestFirst V priced distinct)
    exact arranged.trans (List.perm_insertionSort _ side).symm

end Ranking

end Obscura.Swapbook
