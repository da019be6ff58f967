import Obscura.Lib.Numerals
import Mathlib.Algebra.Module.ZMod
import Obscura.Commit.AnonSpend

/-! # Special soundness of the anonymous-spend proof

An extractor that reads the scalars of accepted transcripts only: from transcripts
with one first message and distinct challenges, one more than the index has digits,
it computes either a relation between the two generators of commitments or one index
and two scalars that open the members of both rings at that index, the first of them
also being the secret of the tag.
-/

namespace Obscura.Commit

open OneOfMany Numerals

/-- A challenge and the answers to it. -/
structure Transcript (L : Nat) where
  challenge : ZMod L
  response : Response L

/-- The proof that a first message and a transcript make up. -/
def Transcript.proof {L : Nat} {M : Type} (first : FirstMessage M) (m : Nat) (t : Transcript L) :
    AnonSpendProof L M :=
  { toFirstMessage := first, toResponse := t.response, m := m }

/-- What the extractor computes: coefficients of a relation between `G` and `H`, or an
index with the secrets of the members of both rings. -/
inductive Extraction (L : Nat)
  | relation (g h : ZMod L)
  | opening (index : Nat) (x d : ZMod L)
deriving DecidableEq

section Extractor

variable {L : Nat} [Fact L.Prime]

/-- The first two transcripts and the two openings they give of the digit `j`. -/
def digitOf (t₀ t₁ : Transcript L) (j : Nat) : ZMod L :=
  (t₀.response.f.getD j 0 - t₁.response.f.getD j 0) / (t₀.challenge - t₁.challenge)

/-- The blinding that two transcripts give for digit `j`. -/
def blindOf (t₀ t₁ : Transcript L) (j : Nat) : ZMod L :=
  (t₀.response.za.getD j 0 - t₁.response.za.getD j 0) / (t₀.challenge - t₁.challenge)

/-- The square term that two transcripts give for digit `j`. -/
def squareOf (t₀ t₁ : Transcript L) (j : Nat) : ZMod L :=
  (t₀.response.zb.getD j 0 - t₁.response.zb.getD j 0) / (t₀.challenge - t₁.challenge)

/-- The offset that a transcript leaves for a digit, and its blinding. -/
def offsetOf (t₀ t₁ : Transcript L) (j : Nat) (t : Transcript L) : ZMod L :=
  t.response.f.getD j 0 - digitOf t₀ t₁ j * t.challenge

/-- What is left of a response when the blinding is taken out. -/
def offsetBlindOf (t₀ t₁ : Transcript L) (j : Nat) (t : Transcript L) : ZMod L :=
  t.response.za.getD j 0 - blindOf t₀ t₁ j * t.challenge

/-- The relation that a digit other than zero and one gives, or a transcript with
another offset. -/
def digitRelation (ts : List (Transcript L)) (t₀ t₁ : Transcript L) (j : Nat) :
    Option (ZMod L × ZMod L) :=
  let digit := digitOf t₀ t₁ j
  if (1 - digit) * digit ≠ 0 then
    some ((1 - digit) * blindOf t₀ t₁ j - squareOf t₀ t₁ j, (1 - digit) * digit)
  else
    ts.findSome? fun t =>
      if offsetOf t₀ t₁ j t - offsetOf t₀ t₁ j t₀ ≠ 0 then
        some (offsetBlindOf t₀ t₁ j t - offsetBlindOf t₀ t₁ j t₀,
          offsetOf t₀ t₁ j t - offsetOf t₀ t₁ j t₀)
      else
        none

/-- The index with the given digits. -/
def indexOf (digit : Nat → ZMod L) (m : Nat) : Nat :=
  Nat.ofBits fun j : Fin m => decide (digit j = 1)

/-- The secret behind last responses: their weighted sum. -/
def secretOf (ts : List (Transcript L)) (last : Transcript L → ZMod L) : ZMod L :=
  (ts.map fun t => weight (ts.map Transcript.challenge) t.challenge * last t).sum

/-- The secrets of a hidden index with the given digits. -/
def opening (m : Nat) (ts : List (Transcript L)) (digit : Nat → ZMod L) : Extraction L :=
  .opening (indexOf digit m) (secretOf (ts.take (m + 1)) fun t => t.response.zdO)
    (secretOf (ts.take (m + 1)) fun t => t.response.zdV)

/-- The witness from enough transcripts with one first message. -/
def extract (m : Nat) (ts : List (Transcript L)) : Extraction L :=
  match ts with
  | t₀ :: t₁ :: _ =>
    match (List.range m).findSome? (digitRelation ts t₀ t₁) with
    | some (g, h) => .relation g h
    | none => opening m ts (digitOf t₀ t₁)
  | _ => opening m ts fun _ => 0

end Extractor

section Soundness

variable {L : Nat} {M : Type} [AddCommGroup M] (gens : Generators M)

/-- The relation holds and is not trivial, or the secrets open both rings at the index
and the tag. -/
def Extraction.Holds (ownRing valRing : List M) (T : M) : Extraction L → Prop
  | .relation g h => (g ≠ 0 ∨ h ≠ 0) ∧ scalarMult g gens.G + scalarMult h gens.hPoint = 0
  | .opening index x d => ownRing[index]? = some (scalarMult x gens.G) ∧
      multByCofactor T = multByCofactor (scalarMult x gens.uGen) ∧
      valRing[index]? = some (scalarMult d gens.G)

variable [Fact L.Prime]

theorem scalarMult_eq_smul [Module (ZMod L) M] (k : ZMod L) (P : M) : scalarMult k P = k • P := by
  rw [scalarMult, ← Nat.cast_smul_eq_nsmul (ZMod L), ZMod.natCast_zmod_val]

theorem multByCofactor_smul [Module (ZMod L) M] (k : ZMod L) (P : M) :
    multByCofactor (k • P) = k • multByCofactor P :=
  smul_comm _ _ _

variable [Module (ZMod L) M] {gens} {ownRing valRing : List M} {T : M}
  {first : FirstMessage M} {m : Nat} {ts : List (Transcript L)} {t₀ t₁ t : Transcript L} {j : Nat}

/-- What the equations say of a transcript, in a module over the scalars. -/
def Answers (gens : Generators M) (ownRing valRing : List M) (T : M) (first : FirstMessage M)
    (m : Nat) (t : Transcript L) : Prop :=
  Accepted gens m t.challenge ownRing valRing T (t.proof first m)

namespace Answers

theorem digit (answers : Answers gens ownRing valRing T first m t) (below : j < m) :
    t.challenge • first.cl.getD j 0 + first.ca.getD j 0 =
      t.response.f.getD j 0 • gens.hPoint + t.response.za.getD j 0 • gens.G := by
  have equation := Accepted.digit answers j below
  simpa only [commScalar, scalarMult_eq_smul, Transcript.proof] using equation

theorem square (answers : Answers gens ownRing valRing T first m t) (below : j < m) :
    (t.challenge - t.response.f.getD j 0) • first.cl.getD j 0 + first.cb.getD j 0 =
      t.response.zb.getD j 0 • gens.G := by
  have equation := Accepted.square answers j below
  simpa only [commScalar, scalarMult_eq_smul, zero_smul, zero_add, Transcript.proof]
    using equation

theorem opened (answers₀ : Answers gens ownRing valRing T first m t₀)
    (answers₁ : Answers gens ownRing valRing T first m t₁) (apart : t₀.challenge ≠ t₁.challenge)
    (below : j < m) :
    first.cl.getD j 0 = digitOf t₀ t₁ j • gens.hPoint + blindOf t₀ t₁ j • gens.G :=
  digit_opening apart (answers₀.digit below) (answers₁.digit below)

end Answers

theorem digitRelation_holds (answers : ∀ t ∈ ts, Answers gens ownRing valRing T first m t)
    (listed₀ : t₀ ∈ ts) (listed₁ : t₁ ∈ ts) (apart : t₀.challenge ≠ t₁.challenge) (below : j < m)
    {g h : ZMod L} (found : digitRelation ts t₀ t₁ j = some (g, h)) :
    (Extraction.relation g h).Holds gens ownRing valRing T := by
  have opened := (answers t₀ listed₀).opened (answers t₁ listed₁) apart below
  simp only [Extraction.Holds, scalarMult_eq_smul]
  rw [digitRelation] at found
  split_ifs at found with bit
  · have nonzero : t₀.challenge - t₁.challenge ≠ 0 := sub_ne_zero.mpr apart
    cases found
    exact ⟨Or.inr bit, digit_relation apart opened (div_mul_cancel₀ _ nonzero).symm
      ((answers t₀ listed₀).square below) ((answers t₁ listed₁).square below)⟩
  · obtain ⟨t, listed, found⟩ := List.exists_of_findSome?_eq_some found
    split_ifs at found with differs
    cases found
    exact ⟨Or.inr differs, offset_relation opened ((answers t₀ listed₀).digit below)
      ((answers t listed).digit below)⟩

theorem digitRelation_none (none : digitRelation ts t₀ t₁ j = none) :
    (digitOf t₀ t₁ j = 0 ∨ digitOf t₀ t₁ j = 1) ∧
      ∀ t ∈ ts, t.response.f.getD j 0 =
        digitOf t₀ t₁ j * t.challenge + offsetOf t₀ t₁ j t₀ := by
  rw [digitRelation] at none
  split_ifs at none with bit
  rw [not_not, mul_eq_zero] at bit
  rw [List.findSome?_eq_none_iff] at none
  constructor
  · rcases bit with one | zero
    · exact Or.inr (sub_eq_zero.mp one).symm
    · exact Or.inl zero
  · intro t listed
    have same := none t listed
    split_ifs at same with differs
    rw [not_not, sub_eq_zero] at differs
    rw [← differs, offsetOf]
    ring

/-- Transcripts that answer with the digits of an index open the rings at the index. -/
theorem opening_holds (answers : ∀ t ∈ ts, Answers gens ownRing valRing T first m t)
    (enough : m + 1 ≤ ts.length) (distinct : (ts.map Transcript.challenge).Nodup)
    (digit offset : Nat → ZMod L) (bits : ∀ j < m, digit j = 0 ∨ digit j = 1)
    (linear : ∀ t ∈ ts, ∀ j < m,
      t.response.f.getD j 0 = digit j * t.challenge + offset j) :
    (opening m ts digit).Holds gens ownRing valRing T := by
  obtain ⟨t, listed⟩ : ∃ t, t ∈ ts := List.exists_mem_of_length_pos (by omega)
  have sizes := answers t listed
  -- The secrets are read off from the first `m + 1` transcripts.
  have used : ∀ t ∈ ts.take (m + 1), t ∈ ts := fun t member => List.mem_of_mem_take member
  have apart : ((ts.take (m + 1)).map Transcript.challenge).Nodup := by
    rw [List.map_take]
    exact distinct.sublist (List.take_sublist _ _)
  have count : (ts.take (m + 1)).length = m + 1 := by
    rw [List.length_take]
    omega
  have hidden : indexOf digit m < 2 ^ m := Nat.ofBits_lt_two_pow _
  have digits : ∀ j < m, digit j = if (indexOf digit m).testBit j then 1 else 0 := by
    intro j below
    rw [indexOf, Nat.testBit_ofBits_lt _ _ below]
    rcases bits j below with zero | one
    · simp [zero]
    · simp [one]
  have evaluated : ∀ t ∈ ts.take (m + 1), ∀ i,
      selectorAt t.response.f t.challenge m i = (selector digit offset m i).eval t.challenge := by
    intro t member i
    rw [selectorAt_eq, eval_selector]
    apply Finset.prod_congr rfl
    intro j inside
    rw [linear t (used t member) j (Finset.mem_range.mp inside)]
  -- The top coefficients select the member at the index.
  have selected : ∀ ring : List M, ring.length = 2 ^ m →
      ∑ i ∈ Finset.range (2 ^ m), (selector digit offset m i).coeff m • ring.getD i 0 =
        ring.getD (indexOf digit m) 0 := by
    intro ring _
    rw [Finset.sum_eq_single_of_mem _ (Finset.mem_range.mpr hidden)]
    · rw [coeff_selector_index hidden hidden digits, if_pos rfl, one_smul]
    · intro i inside other
      rw [coeff_selector_index hidden (Finset.mem_range.mp inside) digits, if_neg other, zero_smul]
  have member : ∀ ring : List M, ring.length = 2 ^ m →
      ring[indexOf digit m]? = some (ring.getD (indexOf digit m) 0) := by
    intro ring size
    rw [List.getD_eq_getElem?_getD, List.getElem?_eq_getElem (size ▸ hidden), Option.getD_some]
  refine ⟨?_, ?_, ?_⟩
  · have read := sum_coeff_ring (fun t => t.response.zdO) (2 ^ m) (selector digit offset m)
      (fun i => ownRing.getD i 0) (fun k => first.cdO.getD k 0) gens.G apart count
      (natDegree_selector_le digit offset m) ?_
    · rw [selected ownRing sizes.ownSize] at read
      rw [member ownRing sizes.ownSize, read, scalarMult_eq_smul]
      rfl
    · intro t listed
      have equation := Accepted.own (answers t (used t listed))
      simp only [scalarMult_eq_smul, Transcript.proof] at equation
      simpa only [evaluated t listed] using equation
  · have read := sum_coeff_ring (fun t => t.response.zdO) 1 (fun _ => Polynomial.X ^ m)
      (fun _ => multByCofactor T) (fun k => multByCofactor (first.cdt.getD k 0))
      (multByCofactor gens.uGen) apart count (fun _ => Polynomial.natDegree_X_pow_le m) ?_
    · rw [Finset.sum_range_one, Polynomial.coeff_X_pow_self, one_smul] at read
      rw [read, scalarMult_eq_smul, multByCofactor_smul]
      rfl
    · intro t listed
      have equation := Accepted.image (answers t (used t listed))
      simp only [scalarMult_eq_smul, multByCofactor_smul, Transcript.proof] at equation
      simpa only [Finset.sum_range_one, Polynomial.eval_pow, Polynomial.eval_X] using equation
  · have read := sum_coeff_ring (fun t => t.response.zdV) (2 ^ m) (selector digit offset m)
      (fun i => valRing.getD i 0) (fun k => first.cdV.getD k 0) gens.G apart count
      (natDegree_selector_le digit offset m) ?_
    · rw [selected valRing sizes.valSize] at read
      rw [member valRing sizes.valSize, read, scalarMult_eq_smul]
      rfl
    · intro t listed
      have equation := Accepted.value (answers t (used t listed))
      simp only [scalarMult_eq_smul, Transcript.proof] at equation
      simpa only [evaluated t listed] using equation

/-- The extraction from enough answers holds. -/
theorem extract_holds (answers : ∀ t ∈ ts, Answers gens ownRing valRing T first m t)
    (enough : m + 1 ≤ ts.length) (distinct : (ts.map Transcript.challenge).Nodup) :
    (extract m ts).Holds gens ownRing valRing T := by
  match ts, answers, enough, distinct with
  | [], _, enough, _ => exact absurd enough (by simp)
  | [t₀], answers, enough, distinct =>
    have none : m = 0 := by
      simp only [List.length_singleton] at enough
      omega
    subst none
    exact opening_holds answers enough distinct _ (fun _ => 0)
      (fun j below => absurd below (Nat.not_lt_zero j))
      (fun t _ j below => absurd below (Nat.not_lt_zero j))
  | t₀ :: t₁ :: ts, answers, enough, distinct =>
    have apart : t₀.challenge ≠ t₁.challenge := by
      simp only [List.map_cons, List.nodup_cons, List.mem_cons, not_or] at distinct
      exact distinct.1.1
    rw [extract]
    cases search : (List.range m).findSome? (digitRelation (t₀ :: t₁ :: ts) t₀ t₁) with
    | some found =>
      obtain ⟨j, inside, relation⟩ := List.exists_of_findSome?_eq_some search
      exact digitRelation_holds answers (by simp) (by simp) apart (List.mem_range.mp inside)
        relation
    | none =>
      rw [List.findSome?_eq_none_iff] at search
      have digit := fun j (below : j < m) =>
        digitRelation_none (search j (List.mem_range.mpr below))
      exact opening_holds answers enough distinct _ _ (fun j below => (digit j below).1)
        fun t listed j below => (digit j below).2 t listed

end Soundness

/-- **Special soundness.** In a group of prime order, from accepted transcripts with one first
message and distinct challenges, one more than the index of the ring has digits, the extractor
computes a non-trivial relation between `G` and `H`, or one index with a secret that opens the
member of the ownership ring and the tag and a secret that opens the member of the value
ring. -/
theorem anonSpend_special_soundness {L : Nat} [Fact L.Prime] {M : Type} [AddCommGroup M]
    [DecidableEq M] (gens : Generators M) (order : ∀ P : M, L • P = 0) {ownRing valRing : List M}
    {T : M} {first : FirstMessage M} {ts : List (Transcript L)}
    (enough : trailingZeros ownRing.length + 1 ≤ ts.length)
    (distinct : (ts.map Transcript.challenge).Nodup)
    (accepted : ∀ t ∈ ts, verifyTranscript gens t.challenge ownRing valRing T
      (t.proof first (trailingZeros ownRing.length)) = true) :
    (extract (trailingZeros ownRing.length) ts).Holds gens ownRing valRing T := by
  let _ : Module (ZMod L) M := AddCommGroup.zmodModule order
  have answers : ∀ t ∈ ts,
      Answers gens ownRing valRing T first (trailingZeros ownRing.length) t := by
    intro t listed
    obtain ⟨m, equations⟩ := (verifyTranscript_iff gens).mp (accepted t listed)
    have digits : trailingZeros ownRing.length = m := by
      rw [equations.ownSize, trailingZeros_two_pow]
    rw [digits] at equations ⊢
    exact equations
  exact extract_holds answers enough distinct

/-- Generators in the group of three elements. -/
def smallGens : Generators (ZMod 3) := ⟨1, 2, 1⟩

/-- Coins that never meet the challenge. -/
def smallCoins : Coins 3 where
  aj _ := 1
  rl _ := 2
  ra _ := 1
  rb _ := 0
  rhoO _ := 2
  rhoV _ := 1

/-- The second of two members is spent, with the secrets `2` and `1`. -/
def smallTranscript (xc : ZMod 3) : Transcript 3 := ⟨xc, respond smallCoins 1 1 2 1 xc⟩

/-- The extractor on two transcripts of a small ring. -/
theorem smallTranscripts_extract :
    (extract 1 [smallTranscript 1, smallTranscript 2]).Holds smallGens [1, 2] [0, 1] 2 := by
  have accepted : ∀ t ∈ [smallTranscript 1, smallTranscript 2],
      verifyTranscript smallGens t.challenge [1, 2] [0, 1] 2
        (t.proof (firstMessage smallGens smallCoins [1, 2] [0, 1] 1 1 2)
          (trailingZeros [(1 : ZMod 3), 2].length)) = true := by
    decide
  exact anonSpend_special_soundness smallGens (by decide) (by decide) (by decide) accepted

end Obscura.Commit
