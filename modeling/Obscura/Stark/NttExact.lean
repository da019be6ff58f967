import Mathlib.Data.Nat.Bitwise
import Obscura.Lib.RadixTwo
import Obscura.Stark.Extension
import Obscura.Stark.Ntt

/-! # The transform computes the evaluations

The bit reversal and the butterflies of the in-place transform are those of the radix-2 transform
over the canonical field elements, so it computes the values of the polynomial at the powers of a
root of exact order, and its inverse gives the coefficients back.
-/

namespace Obscura.Stark

open RadixTwo

/-! ## Arrays as functions -/

/-- The array holds the first `n` values of `f`. -/
structure Spells (a : Array Felt) (n : Nat) (f : Nat → Goldilocks) : Prop where
  size : a.size = n
  entry : ∀ m < n, a.getD m .zero = (f m).felt

namespace Spells

variable {a : Array Felt} {n : Nat} {f g : Nat → Goldilocks}

theorem congr (spells : Spells a n f) (same : ∀ m < n, g m = f m) : Spells a n g :=
  ⟨spells.size, fun m inside => (spells.entry m inside).trans (congrArg _ (same m inside).symm)⟩

/-- An entry that is set. -/
theorem set (spells : Spells a n f) {i : Nat} (inside : i < n) {x : Felt} {v : Goldilocks}
    (value : x = v.felt) : Spells (a.setIfInBounds i x) n (Function.update f i v) := by
  refine ⟨by rw [Array.size_setIfInBounds, spells.size], fun m among => ?_⟩
  rw [Array.getD_eq_getD_getElem?, Array.getElem?_setIfInBounds]
  by_cases here : i = m
  · rw [if_pos here, if_pos (by rw [spells.size]; exact inside), ← here, Function.update_self,
      Option.getD_some, value]
  · rw [if_neg here, Function.update_of_ne (Ne.symm here), ← Array.getD_eq_getD_getElem?]
    exact spells.entry m among

/-- Two entries that are swapped. -/
theorem swap (spells : Spells a n f) {i j : Nat} (left : i < n) (right : j < n) :
    Spells (a.swapIfInBounds i j) n fun m => if m = i then f j else if m = j then f i else f m := by
  refine ⟨by rw [Array.size_swapIfInBounds, spells.size], fun m among => ?_⟩
  have left' : i < a.size := by rwa [spells.size]
  have right' : j < a.size := by rwa [spells.size]
  have atI := spells.entry i left
  have atJ := spells.entry j right
  rw [Array.getD_eq_getD_getElem?, Array.getElem?_eq_getElem left', Option.getD_some] at atI
  rw [Array.getD_eq_getD_getElem?, Array.getElem?_eq_getElem right', Option.getD_some] at atJ
  rw [Array.swapIfInBounds, dif_pos left', dif_pos right', Array.getD_eq_getD_getElem?,
    Array.getElem?_swap]
  by_cases second : m = j
  · by_cases first : m = i
    · rw [if_pos second.symm, if_pos first, Option.getD_some, atI, ← first, second]
    · rw [if_pos second.symm, if_neg first, if_pos second, Option.getD_some, atI]
  · rw [if_neg (Ne.symm second)]
    by_cases first : m = i
    · rw [if_pos first.symm, if_pos first, Option.getD_some, atJ]
    · rw [if_neg (Ne.symm first), if_neg first, if_neg second, ← Array.getD_eq_getD_getElem?]
      exact spells.entry m among

end Spells

theorem spells_list (c : List Goldilocks) :
    Spells (c.map Goldilocks.felt).toArray c.length fun m => c.getD m 0 := by
  refine ⟨by rw [List.size_toArray, List.length_map], fun m inside => ?_⟩
  rw [Array.getD_eq_getD_getElem?, List.getElem?_toArray, List.getElem?_map,
    List.getD_eq_getElem?_getD, List.getElem?_eq_getElem inside]
  rfl

/-! ## Bit reversal -/

theorem and_two_pow_high {k y : Nat} (below : y < 2 ^ k) : (2 ^ k + y) &&& 2 ^ k = 2 ^ k := by
  rw [Nat.and_two_pow, Nat.testBit_two_pow_add_eq, Nat.testBit_lt_two_pow below]
  exact Nat.one_mul _

theorem and_two_pow_low {k y : Nat} (below : y < 2 ^ k) : y &&& 2 ^ k = 0 := by
  rw [Nat.and_two_pow, Nat.testBit_lt_two_pow below]
  exact Nat.zero_mul _

theorem xor_two_pow_low {k y : Nat} (below : y < 2 ^ k) : y ^^^ 2 ^ k = 2 ^ k + y := by
  have joined : 2 ^ k + y = 2 ^ k ||| y := by
    simpa using Nat.two_pow_add_eq_or_of_lt below 1
  rw [joined]
  refine Nat.eq_of_testBit_eq fun i => ?_
  rw [Nat.testBit_xor, Nat.testBit_or, Nat.testBit_two_pow]
  by_cases top : k = i
  · rw [← top, Nat.testBit_lt_two_pow below]
    simp
  · simp [top]

theorem xor_two_pow_high {k y : Nat} (below : y < 2 ^ k) : (2 ^ k + y) ^^^ 2 ^ k = y := by
  rw [← xor_two_pow_low below, Nat.xor_assoc, Nat.xor_self, Nat.xor_zero]

theorem carryDown_clear {k y : Nat} (rounds : Nat) (below : y < 2 ^ k) :
    carryDown (rounds + 1) (2 ^ k) y = (2 ^ k, y) := by
  rw [carryDown, and_two_pow_low below, if_neg (not_not.mpr rfl)]

theorem carryDown_set {k y : Nat} (rounds : Nat) (below : y < 2 ^ (k + 1)) :
    carryDown (rounds + 1) (2 ^ (k + 1)) (2 ^ (k + 1) + y) = carryDown rounds (2 ^ k) y := by
  have lower : 2 ^ (k + 1) >>> 1 = 2 ^ k := by
    rw [Nat.shiftRight_eq_div_pow, pow_succ, pow_one, Nat.mul_div_cancel _ two_pos]
  have nonzero : 2 ^ (k + 1) ≠ 0 := (Nat.two_pow_pos _).ne'
  rw [carryDown, and_two_pow_high below, if_pos nonzero, lower, xor_two_pow_high below]

/-- The inner loop adds one to the reversed counter. -/
theorem carryDown_reverseBits {k rounds i : Nat} (enough : k < rounds)
    (below : i + 1 < 2 ^ (k + 1)) :
    (carryDown rounds (2 ^ k) (reverseBits (k + 1) i)).2 ^^^
        (carryDown rounds (2 ^ k) (reverseBits (k + 1) i)).1 = reverseBits (k + 1) (i + 1) := by
  induction k generalizing rounds i with
  | zero =>
    obtain rfl : i = 0 := by omega
    obtain ⟨rounds, rfl⟩ := Nat.exists_eq_succ_of_ne_zero (Nat.ne_zero_of_lt enough)
    rw [reverseBits_zero, carryDown_clear rounds (Nat.two_pow_pos 0)]
    rfl
  | succ k ih =>
    obtain ⟨rounds, rfl⟩ := Nat.exists_eq_succ_of_ne_zero (Nat.ne_zero_of_lt enough)
    obtain ⟨x, rfl | rfl⟩ := Nat.even_or_odd' i
    · have small := reverseBits_lt (k + 1) x
      rw [reverseBits_double, carryDown_clear rounds small, xor_two_pow_low small,
        reverseBits_double_add_one]
    · have next : 2 * x + 1 + 1 = 2 * (x + 1) := by ring
      have less : x + 1 < 2 ^ (k + 1) := by
        rw [pow_succ] at below
        omega
      rw [reverseBits_double_add_one, carryDown_set rounds (reverseBits_lt (k + 1) x),
        ih (Nat.lt_of_succ_lt_succ enough) less, next, reverseBits_double]

/-- The loop of `bitReverse` reverses the bits of the indices. -/
theorem bitReverseFrom_spells {k : Nat} (small : k ≤ 63) {rounds i : Nat} (first : 0 < i)
    (last : i + rounds = 2 ^ k) {a : Array Felt} {f : Nat → Goldilocks}
    (spells : Spells a (2 ^ k) (reversing k i f)) :
    Spells (bitReverseFrom (2 ^ k) rounds i (reverseBits k (i - 1)) a) (2 ^ k)
      (reversing k (2 ^ k) f) := by
  induction rounds generalizing i a with
  | zero =>
    rw [Nat.add_zero] at last
    rw [bitReverseFrom, ← last]
    exact last ▸ spells
  | succ rounds ih =>
    have below : i < 2 ^ k := by omega
    obtain ⟨l, rfl⟩ : ∃ l, k = l + 1 := by
      refine Nat.exists_eq_succ_of_ne_zero fun zero => ?_
      rw [zero, pow_zero] at below
      omega
    have half : 2 ^ (l + 1) >>> 1 = 2 ^ l := by
      rw [Nat.shiftRight_eq_div_pow, pow_succ, pow_one, Nat.mul_div_cancel _ two_pos]
    have counter := carryDown_reverseBits (by omega : l < 64) (by omega : i - 1 + 1 < 2 ^ (l + 1))
    rw [Nat.sub_add_cancel first] at counter
    rw [bitReverseFrom, half]
    dsimp only
    rw [counter]
    have step := ih (Nat.succ_pos i) (by omega) (a := if i < reverseBits (l + 1) i then
      a.swapIfInBounds i (reverseBits (l + 1) i) else a) ?_
    · exact step
    · split_ifs with larger
      · refine (spells.swap below (reverseBits_lt _ i)).congr fun m inside => ?_
        rw [reversing_succ below f inside, if_pos larger]
      · refine spells.congr fun m inside => ?_
        rw [reversing_succ below f inside, if_neg larger]

theorem bitReverse_spells {k : Nat} (small : k ≤ 63) {a : Array Felt} {f : Nat → Goldilocks}
    (spells : Spells a (2 ^ k) f) :
    Spells (bitReverse a) (2 ^ k) fun m => f (reverseBits k m) := by
  have positive := Nat.two_pow_pos k
  have start := spells.congr fun m inside => reversing_one k f inside
  have done := bitReverseFrom_spells small Nat.one_pos (by omega : 1 + (2 ^ k - 1) = 2 ^ k) start
  rw [Nat.sub_self, reverseBits_zero] at done
  rw [bitReverse, spells.size]
  exact done.congr fun m inside => (reversing_all k f inside).symm

/-! ## Butterflies -/

/-- A block of butterflies. -/
theorem butterflies_spells {n half start : Nat} (room : start + half + half ≤ n) (w : Goldilocks)
    {a : Array Felt} {f : Nat → Goldilocks} (spells : Spells a n f) :
    Spells (butterflies w.felt half start a) n (block half start half w f) := by
  have loop : ∀ done ≤ half, ∃ a', Spells a' n (block half start done w f) ∧
      (List.range done).foldl (fun (loop : Array Felt × Felt) j =>
        let t := loop.2.mul (loop.1.getD (start + j + half) .zero)
        let u := loop.1.getD (start + j) .zero
        (((loop.1.setIfInBounds (start + j) (u.add t)).setIfInBounds (start + j + half) (u.sub t)),
          loop.2.mul w.felt)) (a, .one) = (a', (w ^ done).felt) := by
    intro done
    induction done with
    | zero =>
      intro _
      exact ⟨a, by rwa [block_zero], by rw [pow_zero]; rfl⟩
    | succ done ih =>
      intro inside
      obtain ⟨a', spells', folded⟩ := ih (Nat.le_of_succ_le inside)
      have low := spells'.entry (start + done) (by omega)
      have high := spells'.entry (start + done + half) (by omega)
      rw [block_low inside] at low
      rw [block_high inside] at high
      rw [List.range_succ, List.foldl_append, folded, List.foldl_cons, List.foldl_nil]
      dsimp only
      rw [low, high, block_succ inside, pow_succ]
      exact ⟨_, (spells'.set (by omega) rfl).set (by omega) rfl, rfl⟩
  obtain ⟨a', done, folded⟩ := loop half le_rfl
  have whole : butterflies w.felt half start a = a' := congrArg Prod.fst folded
  rw [whole]
  exact done

/-! ## The roots -/

/-- The root of unity of order `2 ^ s`. -/
def root (s : Nat) : Goldilocks := nonResidue ^ ((modulus - 1) / 2 ^ s)

theorem rootOfUnity_eq {s : Nat} (small : s ≤ 32) : rootOfUnity s = some (root s).felt := by
  have shifted : ((P - 1) >>> UInt64.ofNat s).toNat = (modulus - 1) / 2 ^ s := by
    have amount : (UInt64.ofNat s).toNat % 64 = s := by
      rw [UInt64.toNat_ofNat', Nat.mod_eq_of_lt (by omega : s < 2 ^ 64)]
      omega
    rw [UInt64.toNat_shiftRight, amount, Nat.shiftRight_eq_div_pow]
    rfl
  have inside : ¬ twoAdicity < s := not_lt.mpr small
  rw [rootOfUnity, if_neg inside]
  have power := Goldilocks.exp_felt nonResidue ((P - 1) >>> UInt64.ofNat s)
  rw [shifted] at power
  exact congrArg some power

theorem modulus_split {s : Nat} (small : s ≤ 32) :
    (modulus - 1) / 2 ^ s = 2 ^ (32 - s) * 4294967295 := by
  have whole : modulus - 1 = 2 ^ (32 - s) * 4294967295 * 2 ^ s := by
    have powers : 2 ^ (32 - s) * 2 ^ s = 2 ^ 32 := by
      rw [← pow_add, Nat.sub_add_cancel small]
    calc modulus - 1 = 2 ^ 32 * 4294967295 := rfl
      _ = 2 ^ (32 - s) * 4294967295 * 2 ^ s := by rw [← powers]; ring
  rw [whole, Nat.mul_div_cancel _ (Nat.two_pow_pos s)]

theorem root_zero : root 0 = 1 := by
  have nonzero : nonResidue ≠ 0 := by decide
  have fermat := Goldilocks.residue_pow_pred nonzero
  rw [← pow_succ] at fermat
  exact fermat

theorem root_square {s : Nat} (small : s < 32) : root (s + 1) * root (s + 1) = root s := by
  rw [root, root, modulus_split small, modulus_split small.le, ← pow_add, ← two_mul, ← mul_assoc,
    ← pow_succ']
  congr 3
  omega

theorem root_one : root 1 = -1 := by
  have square := root_square (s := 0) (by decide)
  rw [root_zero] at square
  refine (mul_self_eq_one_iff.mp square).resolve_left fun trivial => ?_
  have euler := (ZMod.euler_criterion modulus (a := 7) (by decide)).not.mp seven_not_square
  refine euler ?_
  have power := congrArg Goldilocks.residue trivial
  rw [Goldilocks.residue_one, root] at power
  have mapped : (nonResidue ^ ((modulus - 1) / 2 ^ 1)).residue =
      nonResidue.residue ^ ((modulus - 1) / 2 ^ 1) := map_pow Goldilocks.residueHom nonResidue _
  rw [mapped, residue_nonResidue] at power
  exact power

theorem root_half {s : Nat} (small : s < 32) : root (s + 1) ^ 2 ^ s = -1 := by
  induction s with
  | zero => rw [pow_zero, pow_one, root_one]
  | succ s ih =>
    rw [pow_succ', pow_mul, sq, root_square small, ih (Nat.lt_of_succ_lt small)]

theorem orderOf_root {k : Nat} (small : k ≤ 32) : orderOf (root k) = 2 ^ k := by
  cases k with
  | zero => rw [root_zero, orderOf_one, pow_zero]
  | succ k =>
    have half := root_half small
    refine orderOf_eq_prime_pow (p := 2) ?_ ?_
    · rw [half]
      decide
    · rw [pow_succ, pow_mul, half, sq, neg_mul_neg, one_mul]

/-- The root a stage works with. -/
def levelRoot (inverse : Bool) (s : Nat) : Goldilocks :=
  if inverse then (root s)⁻¹ else root s

@[simp] theorem levelRoot_false (s : Nat) : levelRoot false s = root s := if_neg Bool.false_ne_true

@[simp] theorem levelRoot_true (s : Nat) : levelRoot true s = (root s)⁻¹ := if_pos rfl

theorem levelRoot_roots (inverse : Bool) : Roots 32 (levelRoot inverse) := by
  cases inverse with
  | false =>
    refine ⟨fun s small => ?_, fun s small => ?_⟩
    · rw [levelRoot_false, levelRoot_false, root_square small]
    · rw [levelRoot_false, root_half small]
  | true =>
    refine ⟨fun s small => ?_, fun s small => ?_⟩
    · rw [levelRoot_true, levelRoot_true, ← mul_inv, root_square small]
    · rw [levelRoot_true, inv_pow, root_half small, inv_neg, inv_one]

/-! ## Stages -/

/-- A stage of the transform. -/
theorem nttStage_spells {k s : Nat} (level : s < k) (small : k ≤ 32) (inverse : Bool)
    {a : Array Felt} {f : Nat → Goldilocks} (spells : Spells a (2 ^ k) f) :
    ∃ a', nttStage inverse (s + 1) a = some a' ∧
      Spells a' (2 ^ k) (stage (2 ^ s) (levelRoot inverse (s + 1)) f) := by
  have width : 2 ^ (s + 1) = 2 * 2 ^ s := pow_succ' 2 s
  have half : 2 ^ (s + 1) / 2 = 2 ^ s := by rw [width, Nat.mul_div_cancel_left _ two_pos]
  have blocks : 2 ^ k / (2 * 2 ^ s) * (2 * 2 ^ s) = 2 ^ k := by
    rw [← width, Nat.div_mul_cancel (Nat.pow_dvd_pow 2 level)]
  have chosen : (if inverse = true then (root (s + 1)).felt.inv else (root (s + 1)).felt) =
      (levelRoot inverse (s + 1)).felt := by
    cases inverse with
    | false => rw [levelRoot_false, if_neg Bool.false_ne_true]
    | true => rw [levelRoot_true, if_pos rfl, Goldilocks.felt_inv]
  have loop : ∀ done ≤ 2 ^ k / (2 * 2 ^ s), Spells ((List.range done).foldl (fun a b =>
      butterflies (levelRoot inverse (s + 1)).felt (2 ^ s) (b * (2 * 2 ^ s)) a) a) (2 ^ k)
      (partialStage (2 ^ s) done (levelRoot inverse (s + 1)) f) := by
    intro done
    induction done with
    | zero =>
      intro _
      rw [partialStage_zero]
      exact spells
    | succ done ih =>
      intro inside
      have room : (done + 1) * (2 * 2 ^ s) ≤ 2 ^ k := by
        rw [← blocks]
        exact Nat.mul_le_mul_right _ inside
      have ends : (done + 1) * (2 * 2 ^ s) = done * (2 * 2 ^ s) + 2 ^ s + 2 ^ s := by ring
      rw [List.range_succ, List.foldl_append, List.foldl_cons, List.foldl_nil, partialStage_succ]
      exact butterflies_spells (ends ▸ room) _ (ih (Nat.le_of_succ_le inside))
  rw [nttStage, rootOfUnity_eq (by omega), Option.map_some]
  dsimp only
  rw [chosen, spells.size, half, width]
  refine ⟨_, rfl, (loop _ le_rfl).congr fun m inside => ?_⟩
  rw [partialStage, blocks, if_pos inside]

/-- The logarithm of a power of two. -/
theorem log2_two_pow {k : Nat} (small : k ≤ 63) : log2 (2 ^ k) = k := by
  have loop : ∀ rounds i, i ≤ k → k ≤ i + rounds → log2Loop rounds i (2 ^ k) = k := by
    intro rounds
    induction rounds with
    | zero =>
      intro i low high
      exact Nat.le_antisymm low high
    | succ rounds ih =>
      intro i low high
      rw [log2Loop]
      split_ifs with less
      · have below := (Nat.pow_lt_pow_iff_right (by decide : 1 < 2)).mp less
        exact ih (i + 1) below (by omega)
      · have above := (Nat.pow_lt_pow_iff_right (by decide : 1 < 2)).not.mp less
        omega
  exact loop 63 0 (Nat.zero_le k) (by omega)

theorem ntt_spells {k : Nat} (small : k ≤ 32) (inverse : Bool) {a : Array Felt}
    {f : Nat → Goldilocks} (spells : Spells a (2 ^ k) f) :
    ∃ a', ntt inverse a = some a' ∧ Spells a' (2 ^ k) (dft k (levelRoot inverse k) f) := by
  have power : 2 ^ k &&& (2 ^ k - 1) = 0 := by
    rw [Nat.and_two_pow_sub_one_eq_mod, Nat.mod_self]
  have run : ∀ done ≤ k, ∃ a', (List.range done).foldlM (fun a s => nttStage inverse (s + 1) a)
      (bitReverse a) = some a' ∧
      Spells a' (2 ^ k) (stages (levelRoot inverse) (fun m => f (reverseBits k m)) done) := by
    intro done
    induction done with
    | zero =>
      intro _
      exact ⟨_, rfl, bitReverse_spells (by omega) spells⟩
    | succ done ih =>
      intro level
      obtain ⟨a', ran, spells'⟩ := ih (Nat.le_of_succ_le level)
      obtain ⟨a'', stepped, spells''⟩ := nttStage_spells level small inverse spells'
      refine ⟨a'', ?_, spells''⟩
      rw [List.range_succ, List.foldlM_append, ran]
      simpa using stepped
  obtain ⟨a', ran, spells'⟩ := run k le_rfl
  refine ⟨a', ?_, spells'.congr fun m inside => ?_⟩
  · rw [ntt, spells.size, power, if_neg (not_not.mpr rfl), log2_two_pow (by omega)]
    exact ran
  · exact (stages_reversed ((levelRoot_roots inverse).below small) f inside).symm

/-! ## Lists -/

/-- The values of a function at the first indices. -/
def valuesUpTo (n : Nat) (f : Nat → Goldilocks) : List Goldilocks := (List.range n).map f

/-- An array as a list. -/
theorem Spells.toList {a : Array Felt} {n : Nat} {f : Nat → Goldilocks} (spells : Spells a n f) :
    a.toList = (valuesUpTo n f).map Goldilocks.felt := by
  refine List.ext_getElem (by simp [valuesUpTo, spells.size]) fun m left right => ?_
  have inside : m < n := by simpa [valuesUpTo] using right
  have entry := spells.entry m inside
  rw [Array.getD_eq_getD_getElem?, ← Array.getElem?_toList, List.getElem?_eq_getElem left,
    Option.getD_some] at entry
  rw [entry]
  simp [valuesUpTo]

theorem getD_valuesUpTo {n m : Nat} (inside : m < n) (f : Nat → Goldilocks) :
    (valuesUpTo n f).getD m 0 = f m := by
  rw [List.getD_eq_getElem?_getD, valuesUpTo, List.getElem?_map, List.getElem?_range inside]
  rfl

theorem dft_congr {k : Nat} {w : Goldilocks} {f g : Nat → Goldilocks}
    (same : ∀ m < 2 ^ k, f m = g m) : dft k w f = dft k w g := by
  funext r
  exact Finset.sum_congr rfl fun j among => by rw [same j (Finset.mem_range.mp among)]

theorem valuesUpTo_congr {n : Nat} {f g : Nat → Goldilocks} (same : ∀ m < n, f m = g m) :
    valuesUpTo n f = valuesUpTo n g :=
  List.map_congr_left fun m among => same m (List.mem_range.mp among)

theorem valuesUpTo_getD (c : List Goldilocks) : valuesUpTo c.length (fun m => c.getD m 0) = c := by
  refine List.ext_getElem (by simp [valuesUpTo]) fun m left right => ?_
  simp [valuesUpTo, List.getD_eq_getElem?_getD, List.getElem?_eq_getElem right]

theorem forwardNtt_eq {k : Nat} (small : k ≤ 32) {c : List Goldilocks} (length : c.length = 2 ^ k) :
    forwardNtt (c.map Goldilocks.felt) =
      some ((valuesUpTo (2 ^ k) (dft k (root k) fun m => c.getD m 0)).map Goldilocks.felt) := by
  obtain ⟨a, ran, spells⟩ := ntt_spells small false (length ▸ spells_list c)
  rw [forwardNtt, ran, Option.map_some, spells.toList, levelRoot_false]

theorem evalPoly_felt (c : List Goldilocks) (x : Goldilocks) :
    evalPoly (c.map Goldilocks.felt) x.felt =
      (∑ j ∈ Finset.range c.length, c.getD j 0 * x ^ j).felt := by
  induction c with
  | nil => rfl
  | cons coeff c ih =>
    have step : evalPoly ((coeff :: c).map Goldilocks.felt) x.felt =
        ((evalPoly (c.map Goldilocks.felt) x.felt).mul x.felt).add coeff.felt := rfl
    have sum : ∑ j ∈ Finset.range (coeff :: c).length, (coeff :: c).getD j 0 * x ^ j =
        (∑ j ∈ Finset.range c.length, c.getD j 0 * x ^ j) * x + coeff := by
      rw [List.length_cons, Finset.sum_range_succ', Finset.sum_mul]
      simp [pow_succ, mul_assoc]
    rw [step, ih, sum]
    rfl

/-- The factor of the inverse transform. -/
theorem scale_felt {k : Nat} (small : k ≤ 32) :
    (Felt.mk (UInt64.ofNat (2 ^ k % P.toNat))).inv = ((2 : Goldilocks) ^ k)⁻¹.felt := by
  have bound : 2 ^ k ≤ 2 ^ 32 := Nat.pow_le_pow_right (by decide) small
  have below : 2 ^ k < modulus := bound.trans_lt (by decide)
  have same : Felt.mk (UInt64.ofNat (2 ^ k % P.toNat)) = ((2 ^ k : Nat) : Goldilocks).felt := by
    have word := Goldilocks.uint64_natCast below
    rw [toNat_P, Nat.mod_eq_of_lt below]
    congr 1
    rw [← UInt64.toNat_inj, UInt64.toNat_ofNat', Nat.mod_eq_of_lt (below.trans (by decide))]
    exact word.symm
  rw [same, ← Goldilocks.felt_inv, Nat.cast_pow, Nat.cast_ofNat]

theorem inverseNtt_eq {k : Nat} (small : k ≤ 32) {v : List Goldilocks} (length : v.length = 2 ^ k) :
    inverseNtt (v.map Goldilocks.felt) = some ((valuesUpTo (2 ^ k) fun i =>
      dft k (root k)⁻¹ (fun m => v.getD m 0) i * ((2 : Goldilocks) ^ k)⁻¹).map
        Goldilocks.felt) := by
  obtain ⟨a, ran, spells⟩ := ntt_spells small true (length ▸ spells_list v)
  rw [inverseNtt, ran, Option.map_some]
  dsimp only
  rw [spells.size, scale_felt small, spells.toList, levelRoot_true, List.map_map, valuesUpTo,
    valuesUpTo, List.map_map, List.map_map]
  refine congrArg some (List.map_congr_left fun i _ => ?_)
  rw [Function.comp_apply, Function.comp_apply, Function.comp_apply, Goldilocks.felt_mul]

/-! ## Inversion -/

theorem root_ne_zero (k : Nat) : root k ≠ 0 := pow_ne_zero _ (by decide)

theorem scale_ne_zero (k : Nat) : (2 : Goldilocks) ^ k ≠ 0 := pow_ne_zero k (by decide)

theorem orderOf_root_inv {k : Nat} (small : k ≤ 32) : orderOf (root k)⁻¹ = 2 ^ k := by
  rw [← orderOf_root small, orderOf_eq_orderOf_iff]
  intro n
  rw [inv_pow, inv_eq_one]

theorem dft_mul_right (k : Nat) (w scale : Goldilocks) (g : Nat → Goldilocks) (r : Nat) :
    dft k w (fun m => g m * scale) r = dft k w g r * scale := by
  rw [dft, dft, Finset.sum_mul]
  exact Finset.sum_congr rfl fun j _ => by rw [mul_right_comm]

theorem inverse_forward {k : Nat} (small : k ≤ 32) {c : List Goldilocks}
    (length : c.length = 2 ^ k) :
    inverseNtt ((valuesUpTo (2 ^ k) (dft k (root k) fun m => c.getD m 0)).map Goldilocks.felt) =
      some (c.map Goldilocks.felt) := by
  rw [inverseNtt_eq small (by simp [valuesUpTo])]
  conv_rhs => rw [← valuesUpTo_getD c, length]
  refine congrArg (fun values => some (List.map Goldilocks.felt values))
    (valuesUpTo_congr fun i inside => ?_)
  rw [dft_congr fun m among => getD_valuesUpTo among _,
    dft_inverse (orderOf_root small) (mul_inv_cancel₀ (root_ne_zero k)) _ inside, mul_right_comm,
    mul_inv_cancel₀ (scale_ne_zero k), one_mul]

/-- The transform undoes the inverse transform. -/
theorem forward_inverse {k : Nat} (small : k ≤ 32) {v : List Goldilocks}
    (length : v.length = 2 ^ k) :
    forwardNtt ((valuesUpTo (2 ^ k) fun i =>
      dft k (root k)⁻¹ (fun m => v.getD m 0) i * ((2 : Goldilocks) ^ k)⁻¹).map
        Goldilocks.felt) = some (v.map Goldilocks.felt) := by
  rw [forwardNtt_eq small (by simp [valuesUpTo])]
  conv_rhs => rw [← valuesUpTo_getD v, length]
  refine congrArg (fun values => some (List.map Goldilocks.felt values))
    (valuesUpTo_congr fun i inside => ?_)
  rw [dft_congr fun m among => getD_valuesUpTo among _, dft_mul_right,
    dft_inverse (orderOf_root_inv small) (inv_mul_cancel₀ (root_ne_zero k)) _ inside,
    mul_right_comm, mul_inv_cancel₀ (scale_ne_zero k), one_mul]

/-- For every length `2 ^ k` up to `2 ^ 32` the transform lists the values of the polynomial at the
powers of a root of exact order, and the two transforms invert each other. -/
theorem ntt_exact {k : Nat} (small : k ≤ 32) (c : List Goldilocks) (length : c.length = 2 ^ k) :
    (∃ w : Goldilocks, rootOfUnity (log2 c.length) = some w.felt ∧ orderOf w = 2 ^ k ∧
      ∃ out : List Goldilocks, out.length = 2 ^ k ∧
        forwardNtt (c.map Goldilocks.felt) = some (out.map Goldilocks.felt) ∧
        (∀ i < 2 ^ k, (out.map Goldilocks.felt)[i]? =
          some (evalPoly (c.map Goldilocks.felt) (w ^ i).felt)) ∧
        inverseNtt (out.map Goldilocks.felt) = some (c.map Goldilocks.felt)) ∧
    ∃ back : List Goldilocks,
      inverseNtt (c.map Goldilocks.felt) = some (back.map Goldilocks.felt) ∧
        forwardNtt (back.map Goldilocks.felt) = some (c.map Goldilocks.felt) := by
  refine ⟨⟨root k, ?_, orderOf_root small, _, by simp [valuesUpTo], forwardNtt_eq small length,
    fun i inside => ?_, inverse_forward small length⟩, _, inverseNtt_eq small length,
    forward_inverse small length⟩
  · rw [length, log2_two_pow (by omega), rootOfUnity_eq small]
  · rw [evalPoly_felt, List.getElem?_map, valuesUpTo, List.getElem?_map,
      List.getElem?_range inside, length]
    refine congrArg (fun value : Goldilocks => some value.felt) ?_
    exact Finset.sum_congr rfl fun j _ => by rw [pow_mul]

theorem ntt_exact_pair : 1 ≤ 32 ∧ ([1, 2] : List Goldilocks).length = 2 ^ 1 ∧
    ∃ back : List Goldilocks,
      inverseNtt (([1, 2] : List Goldilocks).map Goldilocks.felt) =
        some (back.map Goldilocks.felt) ∧
      forwardNtt (back.map Goldilocks.felt) =
        some (([1, 2] : List Goldilocks).map Goldilocks.felt) :=
  ⟨by decide, rfl, (ntt_exact (k := 1) (by decide) [1, 2] rfl).2⟩

end Obscura.Stark
