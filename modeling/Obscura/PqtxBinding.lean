import Mathlib
import Obscura.Pqtx

/-! # What inflation would take

The commitments of the hybrid-key ledger bind short openings: when the funded and the unspent
outputs of a run are opened, either the values balance modulo `Q` or the openings and the
blinding differences add up to a short vector that the binding matrix sends to zero, and that
is not zero itself (`inflation_relation`).
-/

namespace Obscura.Pqtx

open Wire Checked Pqcommit

/-! ## Sums of coefficient vectors -/

/-- The sum of vectors, entry by entry. -/
def vecSum : List (List Int) → List Int
  | [] => List.replicate RandLen 0
  | r :: rs => List.zipWith (· + ·) r (vecSum rs)

/-- Every coefficient between `-b` and `b`. -/
def Short (b : Int) (r : List Int) : Prop := ∀ ri ∈ r, -b ≤ ri ∧ ri ≤ b

theorem Short.zipWith {b b' : Int} {r s : List Int} (f : Int → Int → Int)
    (within : ∀ x y, -b ≤ x → x ≤ b → -b' ≤ y → y ≤ b' → -(b + b') ≤ f x y ∧ f x y ≤ b + b')
    (first : Short b r) (second : Short b' s) : Short (b + b') (List.zipWith f r s) := by
  intro z member
  obtain ⟨i, inside, rfl⟩ := List.mem_iff_getElem.mp member
  obtain ⟨inFirst, inSecond⟩ : i < r.length ∧ i < s.length := by
    rw [List.length_zipWith] at inside
    omega
  rw [List.getElem_zipWith]
  have left := first r[i] (List.getElem_mem inFirst)
  have right := second s[i] (List.getElem_mem inSecond)
  exact within _ _ left.1 left.2 right.1 right.2

/-- The forms of a sum of vectors. -/
theorem vecSum_spec {rs : List (List Int)} (wide : ∀ r ∈ rs, r.length = RandLen) :
    (vecSum rs).length = RandLen ∧
      ∀ row, form row (vecSum rs) = (rs.map (form row)).sum := by
  induction rs with
  | nil => exact ⟨List.length_replicate, fun row => form_zeros row RandLen⟩
  | cons r rs ih =>
    obtain ⟨length, sums⟩ := ih fun r member => wide r (List.mem_cons_of_mem _ member)
    have own := wide r List.mem_cons_self
    refine ⟨by rw [vecSum, List.length_zipWith, own, length, Nat.min_self], fun row => ?_⟩
    rw [vecSum, form_add row (own.trans length.symm), sums, List.map_cons, List.sum_cons]

theorem vecSum_short {α : Type} {xs : List α} {vec : α → List Int} {bound : α → Int}
    (short : ∀ x ∈ xs, Short (bound x) (vec x)) :
    Short (xs.map bound).sum (vecSum (xs.map vec)) := by
  induction xs with
  | nil =>
    intro ri member
    obtain rfl := (List.mem_replicate.mp member).2
    constructor <;> simp
  | cons x xs ih =>
    have rest := ih fun x member => short x (List.mem_cons_of_mem _ member)
    exact (short x List.mem_cons_self).zipWith (· + ·)
      (fun x y _ _ _ _ => by constructor <;> omega) rest

/-! ## The blinding differences of a run -/

variable {σ : Scheme}

/-- The bound that `checkConservation` puts on a blinding difference. -/
def Bounded (s : PQSpend) : Prop :=
  s.blindDiff.length = RandLen ∧ Short ((1 + s.outputs.length) * RandB) s.blindDiff

/-- A spend that passes keeps its vectors bounded. -/
theorem bounded_of_conserved {spent : PQOutput} {s : PQSpend}
    (conserved : Ledger.checkConservation σ spent s = .ok ()) : Bounded s := by
  unfold Ledger.checkConservation at conserved
  simp only [bind_ok, reject_ok, exists_const, orFail_ok, ne_eq, not_not] at conserved
  obtain ⟨cIn, -, acc, -, feeC, -, length, short, -⟩ := conserved
  refine ⟨length, fun ri member => ?_⟩
  by_contra outside
  exact short ⟨ri, member, by omega⟩

/-- So does every spend of a run. -/
theorem run_bounded (actions : List Action) : ∀ s ∈ spends (run σ actions).2, Bounded s := by
  induction actions using List.reverseRecOn with
  | nil => exact fun s member => absurd member List.not_mem_nil
  | append_singleton actions a ih =>
    rw [run, List.foldl_append]
    change ∀ s ∈ spends (step σ (run σ actions) a).2, Bounded s
    cases a with
    | addOutput o =>
      dsimp only [step]
      cases (run σ actions).1.addOutput σ o with
      | error text => exact ih
      | ok l =>
        have same : spends ((run σ actions).2 ++ [.funded o]) = spends (run σ actions).2 := by
          simp [spends, Event.spend?]
        rw [same]
        exact ih
    | applySpend s root member =>
      dsimp only [step]
      obtain ⟨text, refused⟩ | ⟨spent, valid, -, applied⟩ :=
        Ledger.applySpend_cases (run σ actions).1 s root member
      · rw [refused]
        cases (run σ actions).1.utxo[hexstr s.outputRef]? <;> exact ih
      · rw [valid.found, applied]
        have more : spends ((run σ actions).2 ++ [.spent spent s]) =
            spends (run σ actions).2 ++ [s] := by
          simp [spends, Event.spend?]
        rw [more]
        exact List.forall_mem_append.mpr
          ⟨ih, List.forall_mem_singleton.mpr (bounded_of_conserved valid.conserved)⟩

/-! ## Openings -/

/-- The outputs that came in without a spend. -/
def funded (events : List Event) : List PQOutput :=
  (events.filter fun e => e.spend?.isNone).flatMap Event.created

/-- The fees of all spends. -/
def fees (events : List Event) : Nat := ((spends events).map fun s => s.fee.toNat).sum

/-- The outputs that the ledger still lists. -/
def unspent (l : Ledger) : List PQOutput := l.utxo.toList.map fun entry => entry.2

/-- A value and short randomness that an output's commitment opens to. -/
structure Opens (σ : Scheme) (o : PQOutput) (v : Nat) (r : List Int) : Prop where
  commits : parseCommitment o.commitment = .ok (linearMap σ.pp v r)
  length : r.length = RandLen
  short : Short RandB r

theorem Opens.word {o : PQOutput} {v : Nat} {r : List Int} (opens : Opens σ o v r)
    (j : Option (Fin N1)) :
    (outWord j o : ZMod Q) = j.elim (v : ZMod Q) (fun _ => 0) + form (σ.pp.row j) r := by
  have word : outWord j o = (linearMap σ.pp v r).word j := by
    rw [outWord, opens.commits]
    rfl
  rw [word, linearMap_word, accumulate_cast]
  cases j <;> simp [ZMod.natCast_mod]

/-- The sum of the words of opened outputs. -/
theorem sum_words {outs : List PQOutput} {value : PQOutput → Nat} {rand : PQOutput → List Int}
    (opens : ∀ o ∈ outs, Opens σ o (value o) (rand o)) (j : Option (Fin N1)) :
    (outs.map fun o => (outWord j o : ZMod Q)).sum =
      j.elim ((outs.map value).sum : ZMod Q) (fun _ => 0) +
        form (σ.pp.row j) (vecSum (outs.map rand)) := by
  have wide : ∀ r ∈ outs.map rand, r.length = RandLen := by
    intro r member
    obtain ⟨o, here, rfl⟩ := List.mem_map.mp member
    exact (opens o here).length
  rw [(vecSum_spec wide).2, List.map_map]
  induction outs with
  | nil => cases j <;> simp
  | cons o outs ih =>
    have rest := ih (fun o member => opens o (List.mem_cons_of_mem _ member))
      fun r member => wide r (List.mem_cons_of_mem _ member)
    rw [List.map_cons, List.sum_cons, rest, (opens o List.mem_cons_self).word j]
    cases j with
    | none =>
      simp only [Option.elim, List.map_cons, List.sum_cons, Nat.cast_add, Function.comp_apply]
      ring
    | some i =>
      simp only [Option.elim, List.map_cons, List.sum_cons, Function.comp_apply]
      ring

theorem funding_sum (events : List Event) (j : Option (Fin N1)) :
    (events.map (Event.funding j)).sum =
      ((funded events).map fun o => (outWord j o : ZMod Q)).sum := by
  induction events with
  | nil => rfl
  | cons e events ih =>
    rw [List.map_cons, List.sum_cons, ih]
    cases e with
    | funded o => simp [funded, Event.funding, Event.spend?, Event.created]
    | spent o s => simp [funded, Event.funding, Event.spend?]

theorem burnt_sum {events : List Event} (wide : ∀ s ∈ spends events, s.blindDiff.length = RandLen)
    (canonical : ∀ s ∈ spends events, ∀ o ∈ s.outputs, ∀ j, outWord j o < Q)
    (j : Option (Fin N1)) :
    (events.map (Event.burnt σ j)).sum =
      j.elim (fees events : ZMod Q) (fun _ => 0) +
        form (σ.pp.row j) (vecSum ((spends events).map PQSpend.blindDiff)) := by
  have lengths : ∀ r ∈ (spends events).map PQSpend.blindDiff, r.length = RandLen := by
    intro r member
    obtain ⟨s, here, rfl⟩ := List.mem_map.mp member
    exact wide s here
  rw [(vecSum_spec lengths).2, List.map_map]
  clear lengths
  induction events with
  | nil => cases j <;> simp [spends, fees]
  | cons e events ih =>
    cases e with
    | funded o =>
      have same : spends (.funded o :: events) = spends events := rfl
      rw [List.map_cons, List.sum_cons, ih (same ▸ wide) (same ▸ canonical), Event.burnt,
        zero_add]
      rfl
    | spent o s =>
      have more : spends (.spent o s :: events) = s :: spends events := rfl
      rw [more] at wide canonical
      have rest := ih (fun s member => wide s (List.mem_cons_of_mem _ member))
        fun s member => canonical s (List.mem_cons_of_mem _ member)
      have none := wraps_canonical j (outWord j o)
        fun o member => canonical s List.mem_cons_self o member j
      have paid : fees (.spent o s :: events) = s.fee.toNat + fees events := rfl
      rw [List.map_cons, List.sum_cons, more, rest, paid, Event.burnt, none]
      cases j with
      | none =>
        simp only [Option.elim, List.map_cons, List.sum_cons, Nat.cast_add,
          Function.comp_apply, Nat.cast_zero]
        ring
      | some i =>
        simp only [Option.elim, List.map_cons, List.sum_cons, Function.comp_apply,
          Nat.cast_zero]
        ring

/-- The funded randomness, less that of the unspent outputs and the blinding differences. -/
def relation (rand : PQOutput → List Int) (state : Ledger × List Event) : List Int :=
  List.zipWith (· - ·) (vecSum ((funded state.2).map rand))
    (List.zipWith (· + ·) (vecSum ((unspent state.1).map rand))
      (vecSum ((spends state.2).map PQSpend.blindDiff)))

/-- **Inflation is a short relation.** Open the funded and the unspent outputs of a run whose
spends create commitments with reduced words. Then the binding matrix sends `relation` to zero,
its coefficients are bounded by the number of openings and of blinding differences, and the
value row sends it to what the unspent values and the fees exceed the funded values by. So value
is created only with a relation that is not zero. -/
theorem inflation_relation (actions : List Action) {value : PQOutput → Nat}
    {rand : PQOutput → List Int}
    (openFunded : ∀ o ∈ funded (run σ actions).2, Opens σ o (value o) (rand o))
    (openUnspent : ∀ o ∈ unspent (run σ actions).1, Opens σ o (value o) (rand o))
    (canonical : ∀ s ∈ spends (run σ actions).2, ∀ o ∈ s.outputs, ∀ j, outWord j o < Q) :
    (relation rand (run σ actions)).length = RandLen ∧
      Short (((funded (run σ actions).2).map fun _ => RandB).sum +
        (((unspent (run σ actions).1).map fun _ => RandB).sum +
          ((spends (run σ actions).2).map fun s => (1 + s.outputs.length) * RandB).sum))
        (relation rand (run σ actions)) ∧
      (∀ i, form (σ.pp.a1 i) (relation rand (run σ actions)) = 0) ∧
      form σ.pp.a2 (relation rand (run σ actions)) =
        (((unspent (run σ actions).1).map value).sum + fees (run σ actions).2 : ZMod Q) -
          ((funded (run σ actions).2).map value).sum := by
  have bounded := @run_bounded σ actions
  have balanced := (@Books.run σ actions).balanced
  generalize run σ actions = state at *
  obtain ⟨l, events⟩ := state
  dsimp only at *
  have lengths : ∀ {outs : List PQOutput}, (∀ o ∈ outs, Opens σ o (value o) (rand o)) →
      (vecSum (outs.map rand)).length = RandLen := by
    intro outs opens
    refine (vecSum_spec fun r member => ?_).1
    obtain ⟨o, here, rfl⟩ := List.mem_map.mp member
    exact (opens o here).length
  have wide : ∀ s ∈ spends events, s.blindDiff.length = RandLen :=
    fun s member => (bounded s member).1
  have diffLength : (vecSum ((spends events).map PQSpend.blindDiff)).length = RandLen := by
    refine (vecSum_spec fun r member => ?_).1
    obtain ⟨s, here, rfl⟩ := List.mem_map.mp member
    exact wide s here
  have restLength : (List.zipWith (· + ·) (vecSum ((unspent l).map rand))
      (vecSum ((spends events).map PQSpend.blindDiff))).length = RandLen := by
    rw [List.length_zipWith, lengths openUnspent, diffLength, Nat.min_self]
  have words : ∀ j, j.elim (((funded events).map value).sum : ZMod Q) (fun _ => 0) +
        form (σ.pp.row j) (vecSum ((funded events).map rand)) =
      j.elim (((unspent l).map value).sum : ZMod Q) (fun _ => 0) +
        form (σ.pp.row j) (vecSum ((unspent l).map rand)) +
      (j.elim (fees events : ZMod Q) (fun _ => 0) +
        form (σ.pp.row j) (vecSum ((spends events).map PQSpend.blindDiff))) := by
    intro j
    have sums := balanced j
    rw [funding_sum, sum_words openFunded j, burnt_sum wide canonical j] at sums
    have held : total j l = ((unspent l).map fun o => (outWord j o : ZMod Q)).sum := by
      rw [total, OrdMap.sum, unspent, List.map_map]
      rfl
    rw [sums, held, sum_words openUnspent j]
  unfold relation
  refine ⟨?_, ?_, fun i => ?_, ?_⟩
  · rw [List.length_zipWith, lengths openFunded, restLength, Nat.min_self]
  · refine (vecSum_short fun o member => (openFunded o member).short).zipWith (· - ·)
      (fun x y _ _ _ _ => by constructor <;> omega) ?_
    exact (vecSum_short fun o member => (openUnspent o member).short).zipWith (· + ·)
      (fun x y _ _ _ _ => by constructor <;> omega)
      (vecSum_short fun s member => (bounded s member).2)
  · have word := words (some i)
    simp only [Option.elim, zero_add] at word
    rw [form_sub _ ((lengths openFunded).trans restLength.symm),
      form_add _ ((lengths openUnspent).trans diffLength.symm)]
    exact sub_eq_zero.mpr word
  · have word := words none
    change _ + form σ.pp.a2 _ = _ + form σ.pp.a2 _ + (_ + form σ.pp.a2 _) at word
    simp only [Option.elim] at word
    rw [form_sub _ ((lengths openFunded).trans restLength.symm),
      form_add _ ((lengths openUnspent).trans diffLength.symm)]
    change form σ.pp.a2 _ - _ = _
    linear_combination word

namespace Inflating

/-- What the outputs of the sample open to. -/
def value (o : PQOutput) : Nat := if o = first then 5 else 9

/-- The randomness of the outputs of the run. -/
def rand (o : PQOutput) : List Int := if o = first then vector 1 0 else vector 0 1

theorem vector_short {x y : Int} (x_small : -RandB ≤ x ∧ x ≤ RandB)
    (y_small : -RandB ≤ y ∧ y ≤ RandB) : Short RandB (vector x y) := by
  intro ri member
  rw [vector, List.mem_cons, List.mem_cons] at member
  rcases member with rfl | rfl | later
  · exact x_small
  · exact y_small
  · obtain rfl := (List.mem_replicate.mp later).2
    decide

/-- The first output opens. -/
theorem opens_first : Opens scheme first (value first) (rand first) where
  commits := by
    have word : accumulate [1, 2] (rand first) 0 = 1 := by decide +kernel
    have own : accumulate [3, 1] (rand first) (value first % Q) = 8 := by decide +kernel
    rw [parse_first, linearMap]
    exact congrArg Except.ok (congrArg₂ Commitment.mk (funext fun _ => word.symm) own.symm)
  length := by decide +kernel
  short := by
    rw [rand, if_pos rfl]
    exact vector_short (by decide) (by decide)

/-- The second output opens. -/
theorem opens_second : Opens scheme second (value second) (rand second) where
  commits := by
    have word : accumulate [1, 2] (rand second) 0 = 2 := by decide +kernel
    have own : accumulate [3, 1] (rand second) (value second % Q) = 10 := by decide +kernel
    rw [parse_second, linearMap]
    exact congrArg Except.ok (congrArg₂ Commitment.mk (funext fun _ => word.symm) own.symm)
  length := by decide +kernel
  short := by
    rw [rand, if_neg (by decide +kernel)]
    exact vector_short (by decide) (by decide)

theorem reduced (j : Option (Fin N1)) : outWord j second < Q := by
  rw [outWord, parse_second]
  cases j with
  | none => exact (by decide : 10 < Q)
  | some i => exact (by decide : 2 < Q)

theorem left : unspent (run scheme actions).1 = [second] := by
  rw [ran]
  decide +kernel

/-- An output of five pays one of nine and a fee of one, and the blinding shows the relation. -/
theorem inflation_relation_of_spend :
    relation rand (run scheme actions) = vector 2 (-1) ∧
      (∀ i, form (scheme.pp.a1 i) (relation rand (run scheme actions)) = 0) ∧
      form scheme.pp.a2 (relation rand (run scheme actions)) =
        (((unspent (run scheme actions).1).map value).sum +
          fees (run scheme actions).2 : ZMod Q) -
            ((funded (run scheme actions).2).map value).sum := by
  have events : (run scheme actions).2 = [.funded first, .spent first spend] := by
    rw [ran]
    rfl
  refine ⟨?_, (inflation_relation actions ?_ ?_ ?_).2.2⟩
  · rw [relation, left, events]
    decide +kernel
  · intro o member
    rw [events] at member
    obtain rfl : o = first := List.mem_singleton.mp member
    exact opens_first
  · intro o member
    rw [left] at member
    obtain rfl := List.mem_singleton.mp member
    exact opens_second
  · intro s member o created j
    rw [events] at member
    obtain rfl : s = spend := List.mem_singleton.mp member
    obtain rfl := List.mem_singleton.mp created
    exact reduced j

end Inflating

end Obscura.Pqtx
