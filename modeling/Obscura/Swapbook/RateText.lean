import Obscura.Swapbook.Book

/-! # Rates as decimal text

A rate is written as its integer part and up to 18 digits of long division on 64-bit words, without
the trailing zeros. It is the cut decimal expansion of the fraction as long as no remainder
overflows when it is multiplied by ten and the 18 digits are not all zero.
-/

namespace Obscura.Swapbook

/-! ## Integers -/

/-- The loop of `strconvU`, which fills its buffer from the back. -/
def strconvLoop : (room : Nat) → UInt64 → List Char → List Char
  | 0, _, buf => buf
  | room + 1, v, buf =>
    if 0 < v then strconvLoop room (v / 10) (Char.ofNat ('0'.toNat + (v % 10).toNat) :: buf)
    else buf

/-- The decimal digits of a word. -/
def strconvU (v : UInt64) : String :=
  if v = 0 then "0" else String.ofList (strconvLoop 20 v [])

theorem digitChar_eq {d : Nat} (small : d < 10) : Char.ofNat ('0'.toNat + d) = Nat.digitChar d := by
  revert d
  decide

theorem strconvLoop_zero (room : Nat) (buf : List Char) : strconvLoop room 0 buf = buf := by
  cases room <;> rfl

/-- The loop writes the digits of a word. -/
theorem strconvLoop_eq {room : Nat} {v : UInt64} (fits : v.toNat < 10 ^ room) (positive : 0 < v)
    (buf : List Char) : strconvLoop room v buf = Nat.toDigits 10 v.toNat ++ buf := by
  induction room generalizing v buf with
  | zero =>
    rw [UInt64.lt_iff_toNat_lt] at positive
    exact absurd positive (by simpa using fits)
  | succ room ih =>
    have digit : (v % 10).toNat = v.toNat % 10 := UInt64.toNat_mod v 10
    have rest : (v / 10).toNat = v.toNat / 10 := UInt64.toNat_div v 10
    rw [strconvLoop, if_pos positive, digit, digitChar_eq (Nat.mod_lt _ (by decide))]
    rcases Nat.lt_or_ge v.toNat 10 with small | large
    · have last : v / 10 = 0 := by
        rw [← UInt64.toNat_inj, rest]
        exact Nat.div_eq_of_lt small
      rw [last, strconvLoop_zero, Nat.toDigits_of_lt_base small, Nat.mod_eq_of_lt small]
      rfl
    · have more : 0 < v / 10 := by
        rw [UInt64.lt_iff_toNat_lt, rest]
        exact Nat.div_pos large (by decide)
      rw [ih (by rw [rest]; omega) more, rest, Nat.toDigits_of_base_le (by decide) large,
        List.append_assoc]
      rfl

theorem strconvU_eq (v : UInt64) : strconvU v = toString v := by
  rw [strconvU]
  split_ifs with zero
  · rw [zero]
    rfl
  · have fits : v.toNat < 10 ^ 20 := v.toNat_lt.trans (by decide)
    rw [strconvLoop_eq fits (UInt64.pos_iff_ne_zero.mpr zero), List.append_nil]
    exact Nat.toString_eq_ofList_toDigits.symm

/-! ## The decimal expansion -/

/-- A digit after the point of `num / den`. -/
def decimalDigit (num den i : Nat) : Nat := num * 10 ^ (i + 1) / den % 10

/-- The first digits after the point. -/
def fracDigits (num den count : Nat) : List Char :=
  (List.range count).map fun i => Nat.digitChar (decimalDigit num den i)

/-- The decimal expansion of `num / den` cut after 18 digits, without trailing zeros. -/
def decimalText (num den : Nat) : String :=
  let frac := (fracDigits num den 18).rdropWhile (· == '0')
  if frac = [] then toString (num / den)
  else toString (num / den) ++ "." ++ String.ofList frac

theorem decimalDigit_mod {den : Nat} (positive : 0 < den) (num i : Nat) :
    decimalDigit (num % den) den i = decimalDigit num den i := by
  have split : num * 10 ^ (i + 1) =
      num % den * 10 ^ (i + 1) + den * (num / den * 10 ^ i * 10) := by
    conv_lhs => rw [← Nat.mod_add_div num den]
    ring
  rw [decimalDigit, decimalDigit, split, Nat.add_mul_div_left _ _ positive,
    Nat.add_mul_mod_self_right]

theorem decimalDigit_succ (num den i : Nat) :
    decimalDigit num den (i + 1) = decimalDigit (num * 10) den i := by
  rw [decimalDigit, decimalDigit, Nat.mul_assoc, ← Nat.pow_succ']

theorem fracDigits_succ {rem den : Nat} (proper : rem < den) (count : Nat) :
    fracDigits rem den (count + 1) =
      Nat.digitChar (rem * 10 / den) :: fracDigits (rem * 10 % den) den count := by
  have positive := Nat.zero_lt_of_lt proper
  have digit : rem * 10 / den < 10 := Nat.div_lt_of_lt_mul (by omega)
  rw [fracDigits, List.range_succ_eq_map, List.map_cons, List.map_map, fracDigits]
  congr 1
  · rw [decimalDigit, Nat.zero_add, Nat.pow_one, Nat.mod_eq_of_lt digit]
  · refine List.map_congr_left fun i _ => ?_
    rw [Function.comp_apply, decimalDigit_succ, decimalDigit_mod positive]

/-! ## Trailing zeros -/

theorem rdropWhile_cons {α : Type} (p : α → Bool) (x : α) (l : List α) :
    (x :: l).rdropWhile p =
      if l.rdropWhile p = [] then (if p x then [] else [x]) else x :: l.rdropWhile p := by
  induction l using List.reverseRecOn with
  | nil => rw [List.rdropWhile_singleton, List.rdropWhile_nil, if_pos rfl]
  | append_singleton l y ih =>
    rw [← List.cons_append, List.rdropWhile_concat, List.rdropWhile_concat, ih]
    split_ifs <;> simp_all

theorem rdropWhile_cons_inj {α : Type} (p : α → Bool) (x : α) (l l' : List α) :
    (x :: l).rdropWhile p = (x :: l').rdropWhile p ↔ l.rdropWhile p = l'.rdropWhile p := by
  rw [rdropWhile_cons, rdropWhile_cons]
  by_cases left : l.rdropWhile p = []
  · by_cases right : l'.rdropWhile p = []
    · simp [left, right]
    · cases p x <;> simp [left, right, Ne.symm right]
  · by_cases right : l'.rdropWhile p = []
    · cases p x <;> simp [left, right]
    · simp [left, right]

theorem zeros_iff {rem den : Nat} (proper : rem < den) (count : Nat) :
    (fracDigits rem den count).rdropWhile (· == '0') = [] ↔ rem * 10 ^ count < den := by
  induction count generalizing rem with
  | zero => simpa [fracDigits] using proper
  | succ count ih =>
    have positive := Nat.zero_lt_of_lt proper
    have digit : rem * 10 / den < 10 := Nat.div_lt_of_lt_mul (by omega)
    have zero : (Nat.digitChar (rem * 10 / den) == '0') = true ↔ rem * 10 < den := by
      rw [← Nat.div_eq_zero_iff_lt positive]
      generalize rem * 10 / den = d at digit
      revert d
      decide
    have grown : rem * 10 ^ (count + 1) = rem * 10 * 10 ^ count := by ring
    rw [fracDigits_succ proper, rdropWhile_cons, grown]
    rcases Nat.lt_or_ge (rem * 10) den with small | large
    · rw [zero.mpr small, Nat.mod_eq_of_lt small, ← ih small]
      simp
    · have least : rem * 10 ≤ rem * 10 * 10 ^ count := Nat.le_mul_of_pos_right _ (by positivity)
      rw [Bool.eq_false_iff.mpr (zero.not.mpr large.not_gt)]
      have long : ¬ rem * 10 * 10 ^ count < den := (large.trans least).not_gt
      simp only [Bool.false_eq_true, if_false, long, iff_false]
      split_ifs <;> simp

/-! ## Long division on words -/

theorem wrapped_lt {rem den : UInt64} (wraps : 2 ^ 64 ≤ rem.toNat * 10) (positive : 0 < den.toNat) :
    (rem * 10 / den).toNat < rem.toNat * 10 / den.toNat := by
  have word : (rem * 10).toNat = rem.toNat * 10 % 2 ^ 64 := UInt64.toNat_mul rem 10
  have bound := den.toNat_lt
  have below : rem.toNat * 10 % 2 ^ 64 + den.toNat ≤ rem.toNat * 10 := by omega
  rw [UInt64.toNat_div, word]
  calc rem.toNat * 10 % 2 ^ 64 / den.toNat
      < (rem.toNat * 10 % 2 ^ 64 + den.toNat) / den.toNat := by
        rw [Nat.add_div_right _ positive]
        exact Nat.lt_succ_self _
    _ ≤ rem.toNat * 10 / den.toNat := Nat.div_le_div_right below

theorem digitChar_inj {d e : Nat} (left : d < 10) (right : e < 10)
    (same : Nat.digitChar d = Nat.digitChar e) : d = e := by
  have distinct : ∀ d < 10, ∀ e < 10, Nat.digitChar d = Nat.digitChar e → d = e := by decide
  exact distinct d left e right same

theorem fractionDigit_eq {d : Nat} (small : d < 10) :
    Char.ofNat (('0'.toNat + d) % 256) = Nat.digitChar d := by
  revert d
  decide

/-- The digits of the loop are those of the expansion, up to trailing zeros, exactly when no
remainder overflows. -/
theorem fractionDigits_iff {den rem : UInt64} (proper : rem.toNat < den.toNat) (count : Nat) :
    (Book.fractionDigits den count rem).rdropWhile (· == '0') =
        (fracDigits rem.toNat den.toNat count).rdropWhile (· == '0') ↔
      ∀ i < count, rem.toNat * 10 ^ i % den.toNat * 10 < 2 ^ 64 := by
  have positive := Nat.zero_lt_of_lt proper
  induction count generalizing rem with
  | zero => simp [Book.fractionDigits, fracDigits]
  | succ count ih =>
    by_cases zero : rem = 0
    · have none : rem.toNat * 10 ^ (count + 1) < den.toNat := by
        rw [zero, UInt64.toNat_zero, Nat.zero_mul]
        exact positive
      rw [(zeros_iff proper (count + 1)).mpr none, Book.fractionDigits, if_pos zero, zero]
      simp
    rw [Book.fractionDigits, if_neg zero, fracDigits_succ proper]
    dsimp only
    have digit : rem.toNat * 10 / den.toNat < 10 := Nat.div_lt_of_lt_mul (by omega)
    rcases Nat.lt_or_ge (rem.toNat * 10) (2 ^ 64) with fits | wraps
    · have word : (rem * 10).toNat = rem.toNat * 10 :=
        (UInt64.toNat_mul rem 10).trans (Nat.mod_eq_of_lt fits)
      have next : (rem * 10 % den).toNat = rem.toNat * 10 % den.toNat := by
        rw [UInt64.toNat_mod, word]
      have later : ∀ i, rem.toNat * 10 ^ (i + 1) % den.toNat =
          (rem * 10 % den).toNat * 10 ^ i % den.toNat := by
        intro i
        rw [next, Nat.pow_succ', ← Nat.mul_assoc, Nat.mod_mul_mod]
      have smaller : (rem * 10 % den).toNat < den.toNat := by
        rw [next]
        exact Nat.mod_lt _ positive
      rw [UInt64.toNat_div, word, fractionDigit_eq digit, rdropWhile_cons_inj, ← next]
      refine (ih smaller).trans ?_
      constructor
      · intro others i inside
        cases i with
        | zero => rwa [Nat.pow_zero, Nat.mul_one, Nat.mod_eq_of_lt proper]
        | succ i =>
          rw [later]
          exact others i (Nat.lt_of_succ_lt_succ inside)
      · intro all i inside
        rw [← later]
        exact all (i + 1) (Nat.succ_lt_succ inside)
    · have less := wrapped_lt wraps positive
      have first : ¬ ∀ i < count + 1, rem.toNat * 10 ^ i % den.toNat * 10 < 2 ^ 64 := by
        intro all
        have start := all 0 (Nat.succ_pos count)
        rw [Nat.pow_zero, Nat.mul_one, Nat.mod_eq_of_lt proper] at start
        exact start.not_ge wraps
      refine iff_of_false (fun same => ?_) first
      rw [fractionDigit_eq (less.trans digit)] at same
      -- the digit of the expansion is not zero, so it is not trimmed
      have shown : Nat.digitChar (rem.toNat * 10 / den.toNat) ≠ '0' := by
        have nonzero : ∀ d < 10, 0 < d → Nat.digitChar d ≠ '0' := by decide
        exact nonzero _ digit (Nat.zero_lt_of_lt less)
      have different : Nat.digitChar (rem * 10 / den).toNat ≠
          Nat.digitChar (rem.toNat * 10 / den.toNat) := fun equal =>
        less.ne (digitChar_inj (less.trans digit) digit equal)
      have untrimmed := beq_eq_false_iff_ne.mpr shown
      have heads := congrArg List.head? same
      rw [rdropWhile_cons, rdropWhile_cons, untrimmed] at heads
      generalize Nat.digitChar (rem * 10 / den).toNat = wrong at heads different
      generalize Nat.digitChar (rem.toNat * 10 / den.toNat) = right at heads different
      split_ifs at heads <;> simp_all

/-! ## Rates -/

/-- The long division of `num / den` stays within words, and its digits are not all cut. -/
def Renders (num den : UInt64) : Prop :=
  (∀ i < 18, num.toNat * 10 ^ i % den.toNat * 10 < 2 ^ 64) ∧
    (num.toNat % den.toNat = 0 ∨ den.toNat ≤ num.toNat % den.toNat * 10 ^ 18)

instance (num den : UInt64) : Decidable (Renders num den) :=
  inferInstanceAs (Decidable (_ ∧ _))

theorem renders_of_le {num den : UInt64} (positive : 0 < den.toNat) (small : den.toNat ≤ 10 ^ 18) :
    Renders num den := by
  refine ⟨fun i _ => ?_, ?_⟩
  · have proper := Nat.mod_lt (num.toNat * 10 ^ i) positive
    omega
  · rcases Nat.eq_zero_or_pos (num.toNat % den.toNat) with zero | left
    · exact .inl zero
    · exact .inr (small.trans (Nat.le_mul_of_pos_left _ left))

/-- A rate is written as its decimal expansion, cut after 18 digits and without trailing zeros,
exactly when no remainder overflows and the digits are not all cut. -/
theorem ratioString_iff (num den : UInt64) (positive : 0 < den) :
    Book.ratioString num den = decimalText num.toNat den.toNat ↔ Renders num den := by
  rw [UInt64.lt_iff_toNat_lt] at positive
  have nonzero : den ≠ 0 := fun zero => absurd positive (by rw [zero]; decide)
  have whole : toString (num / den) = toString (num.toNat / den.toNat) := by
    rw [← UInt64.toNat_div]
    rfl
  have rest : (num % den).toNat = num.toNat % den.toNat := UInt64.toNat_mod num den
  have proper : (num % den).toNat < den.toNat := by
    rw [rest]
    exact Nat.mod_lt _ positive
  have reduced : fracDigits num.toNat den.toNat 18 = fracDigits (num % den).toNat den.toNat 18 := by
    rw [fracDigits, fracDigits, rest]
    exact List.map_congr_left fun i _ => by rw [decimalDigit_mod positive]
  have remainders : (∀ i < 18, (num % den).toNat * 10 ^ i % den.toNat * 10 < 2 ^ 64) ↔
      ∀ i < 18, num.toNat * 10 ^ i % den.toNat * 10 < 2 ^ 64 := by
    refine forall₂_congr fun i _ => ?_
    rw [rest, Nat.mod_mul_mod]
  have digits := fractionDigits_iff proper 18
  have cut := zeros_iff proper 18
  rw [Book.ratioString, if_neg nonzero, decimalText, reduced, Renders, ← remainders, ← digits,
    ← rest]
  dsimp only
  split_ifs with divides zeros zeros
  · have zero : (num % den).toNat = 0 := by rw [divides]; rfl
    have none : (Book.fractionDigits den 18 (num % den)).rdropWhile (· == '0') = [] := by
      rw [Book.fractionDigits, if_pos divides, List.rdropWhile_nil]
    exact iff_of_true whole ⟨none.trans zeros.symm, .inl zero⟩
  · refine absurd (cut.mpr ?_) zeros
    rw [divides, UInt64.toNat_zero, Nat.zero_mul]
    exact positive
  · have nonempty : (num % den).toNat ≠ 0 := fun zero => divides (UInt64.toNat_inj.mp zero)
    have small := cut.mp zeros
    refine iff_of_false (fun same => ?_) fun both => both.2.elim nonempty small.not_ge
    have lengths := congrArg String.length same
    rw [whole, String.length_append, String.length_append] at lengths
    have point : ".".length = 1 := rfl
    omega
  · have long := not_lt.mp (cut.not.mp zeros)
    rw [whole, String.append_right_inj, String.ofList_inj]
    exact ⟨fun same => ⟨same, .inr long⟩, And.left⟩

theorem ratioString_oneThird : (0 : UInt64) < 3 ∧
    (Book.ratioString 1 3 = decimalText 1 3 ↔ Renders 1 3) :=
  ⟨by decide, ratioString_iff 1 3 (by decide)⟩

/-- A small rate is written with a point that nothing follows, and a rate just below one as if it
were nothing. -/
theorem ratioString_wrong :
    Book.ratioString 1 2000000000000000000 = "0." ∧
      decimalText 1 2000000000000000000 = "0" ∧
      Book.ratioString 18446744073709551614 18446744073709551615 = "0." ∧
      decimalText 18446744073709551614 18446744073709551615 = "0.999999999999999999" := by
  decide +kernel

end Obscura.Swapbook
