import Obscura.Lib.Checked
import Obscura.Lib.Wire
import Mathlib.Data.ZMod.Basic

/-! # Lattice commitments to amounts

Commitments `(A1 · r, A2 · r + v)` modulo `Q` to a value under a short randomness. The map is
linear, and subtraction of commitments is subtraction modulo `Q`, with one exception: words
that come off the wire are not reduced, and where the subtrahend exceeds the other word by more
than `Q` the 64-bit difference wraps around, which adds `2 ^ 64 = 25` modulo `Q`
(`subWord_cast`).
-/

namespace Obscura.Pqcommit

open Wire Checked

/-- The modulus of the lattice. -/
def Q : Nat := 2 ^ 32 - 5

/-- The rows of the binding part. -/
def N1 : Nat := 128

/-- The entries of a randomness vector. -/
def RandLen : Nat := 512

/-- The bound on an entry of a fresh vector. -/
def RandB : Int := 4096

/-- A commitment: the words of the binding part and the word that hides the value. -/
structure Commitment where
  C1 : Fin N1 → Nat
  C2 : Nat
deriving DecidableEq

/-- The public matrices, a row of the binding part for each word. -/
structure Params where
  a1 : Fin N1 → List Nat
  a2 : List Nat

/-- `canon`: an entry as a residue. -/
def canon (ri : Int) : Nat := ((ri.tmod Q + Q).tmod Q).toNat

/-- One row of the map, accumulated over the coefficients. -/
def accumulate : (row : List Nat) → (r : List Int) → (acc : Nat) → Nat
  | a :: row, ri :: r, acc => accumulate row r ((acc + a * canon ri) % Q)
  | _, _, acc => acc

/-- `linearMap`: the value enters the last row only. -/
def linearMap (pp : Params) (v : Nat) (r : List Int) : Commitment :=
  ⟨fun row => accumulate (pp.a1 row) r 0, accumulate pp.a2 r (v % Q)⟩

/-- `Commit`: the randomness has the right length and short entries. -/
def commit (pp : Params) (v : Nat) (r : List Int) : Except String Commitment := do
  reject (r.length ≠ RandLen) "pqcommit: randomness must have length RandLen"
  reject (Q ≤ v) "pqcommit: amount must be < Q (single-limb demo)"
  reject (∃ ri ∈ r, RandB < ri ∨ ri < -RandB) "pqcommit: randomness coefficient out of bound"
  return linearMap pp v r

/-- `CommitNoBound`: the length alone is checked, as for a difference of vectors. -/
def commitNoBound (pp : Params) (v : Nat) (r : List Int) : Except String Commitment := do
  reject (r.length ≠ RandLen) "pqcommit: randomness must have length RandLen"
  return linearMap pp (v % Q) r

/-- In 64-bit arithmetic. -/
def subWord (c d : Nat) : Nat := ((c + Q + 2 ^ 64 - d) % 2 ^ 64) % Q

/-- A function on words, entry by entry. -/
def Commitment.zipWith (f : Nat → Nat → Nat) (c d : Commitment) :
    Commitment :=
  ⟨fun i => f (c.C1 i) (d.C1 i), f c.C2 d.C2⟩

/-- `Sub`: word by word modulo `Q`. -/
def Commitment.sub (c d : Commitment) : Commitment := c.zipWith subWord d

/-! ## Bytes -/

/-- The little-endian word of an index. -/
def le32At (b : Bytes) (i : Nat) : Nat := ofBigEndian ((b.drop (4 * i)).take 4).reverse

/-- `pqtx.parseCommitment`. -/
def parseCommitment (b : Bytes) : Except String Commitment := do
  reject (b.length ≠ (N1 + 1) * 4) "pqtx: malformed"
  return ⟨fun i => le32At b i, le32At b N1⟩

/-! ## The words of a commitment -/

/-- The value word is `none`. -/
def Commitment.word (c : Commitment) : Option (Fin N1) → Nat
  | none => c.C2
  | some i => c.C1 i

/-- The rows of the map, the value's own among them. -/
def Params.row (pp : Params) : Option (Fin N1) → List Nat
  | none => pp.a2
  | some i => pp.a1 i

theorem Commitment.zipWith_word (f : Nat → Nat → Nat) (c d : Commitment) (j : Option (Fin N1)) :
    (c.zipWith f d).word j = f (c.word j) (d.word j) := by
  cases j <;> rfl

theorem Commitment.sub_word (c d : Commitment) (j : Option (Fin N1)) :
    (c.sub d).word j = subWord (c.word j) (d.word j) := zipWith_word subWord c d j

theorem linearMap_word (pp : Params) (v : Nat) (r : List Int) (j : Option (Fin N1)) :
    (linearMap pp v r).word j = accumulate (pp.row j) r (j.elim (v % Q) fun _ => 0) := by
  cases j <;> simp only [Commitment.word, linearMap, Params.row, Option.elim]

theorem le32At_lt (b : Bytes) (i : Nat) : le32At b i < 2 ^ 32 := by
  have power : (256 : Nat) ^ 4 = 2 ^ 32 := by norm_num
  have short : ((b.drop (4 * i)).take 4).reverse.length ≤ 4 := by
    rw [List.length_reverse]
    exact List.length_take_le _ _
  rw [← power, le32At]
  exact lt_of_lt_of_le (ofBigEndian_lt _) (pow_le_pow_right₀ (by norm_num) short)

theorem parseCommitment_word {b : Bytes} {c : Commitment} (parsed : parseCommitment b = .ok c)
    (j : Option (Fin N1)) : c.word j < 2 ^ 32 := by
  unfold parseCommitment at parsed
  obtain ⟨-, same⟩ := reject_bind_ok.mp parsed
  obtain rfl := Except.ok.inj same
  cases j with
  | none => exact le32At_lt b N1
  | some i => exact le32At_lt b i

/-! ## Linearity -/

/-- A row of the map over the field. -/
def form (row : List Nat) (r : List Int) : ZMod Q :=
  (List.zipWith (fun (a : Nat) (ri : Int) => (a : ZMod Q) * (ri : ZMod Q)) row r).sum

/-- An entry as a residue. -/
theorem canon_cast (ri : Int) : ((canon ri : Nat) : ZMod Q) = (ri : ZMod Q) := by
  have positive : (0 : Int) < Q := by decide
  have low := Int.lt_tmod_of_pos ri positive
  have shifted : 0 ≤ ri.tmod Q + Q := by omega
  have value : ((canon ri : Nat) : Int) = (ri.tmod Q + Q).tmod Q := by
    rw [canon, Int.toNat_of_nonneg]
    exact Int.tmod_nonneg _ shifted
  have cast : ((canon ri : Nat) : ZMod Q) = (((canon ri : Nat) : Int) : ZMod Q) := by
    rw [Int.cast_natCast]
  rw [cast, value, Int.tmod_eq_emod_of_nonneg shifted, ZMod.intCast_mod, Int.tmod_def,
    Int.cast_add, Int.cast_sub, Int.cast_mul, Int.cast_natCast, ZMod.natCast_self, zero_mul,
    sub_zero, add_zero]

theorem accumulate_cast (row : List Nat) (r : List Int) (acc : Nat) :
    ((accumulate row r acc : Nat) : ZMod Q) = acc + form row r := by
  induction row, r, acc using accumulate.induct with
  | case1 a row ri r acc ih =>
    rw [accumulate, ih, ZMod.natCast_mod, form, form, List.zipWith_cons_cons, List.sum_cons,
      Nat.cast_add, Nat.cast_mul, canon_cast, add_assoc]
  | case2 row r acc other =>
    rw [accumulate, form]
    · cases row with
      | nil => simp
      | cons a row =>
        cases r with
        | nil => simp
        | cons ri r => exact (other a row ri r rfl rfl).elim
    · exact other

theorem accumulate_lt (row : List Nat) (r : List Int) {acc : Nat} (small : acc < Q) :
    accumulate row r acc < Q := by
  induction row, r, acc using accumulate.induct with
  | case1 a row ri r acc ih =>
    rw [accumulate]
    exact ih (Nat.mod_lt _ (by decide))
  | case2 row r acc other =>
    rw [accumulate]
    · exact small
    · exact other

theorem form_zeros (row : List Nat) (n : Nat) : form row (List.replicate n 0) = 0 := by
  induction row generalizing n with
  | nil => simp [form]
  | cons a row ih =>
    cases n with
    | zero => simp [form]
    | succ n =>
      have rest := ih n
      unfold form at rest ⊢
      rw [List.replicate_succ, List.zipWith_cons_cons, List.sum_cons, rest, Int.cast_zero,
        mul_zero, add_zero]

/-- The form of a sum or a difference. -/
theorem form_zipWith (row : List Nat) {r s : List Int} (lengths : r.length = s.length)
    {f : Int → Int → Int} {h : ZMod Q → ZMod Q → ZMod Q} (zero : h 0 0 = 0)
    (linear : ∀ (a : Nat) x y u v,
      (a : ZMod Q) * ((f x y : Int) : ZMod Q) + h u v = h (a * x + u) (a * y + v)) :
    form row (List.zipWith f r s) = h (form row r) (form row s) := by
  induction row generalizing r s with
  | nil => simp [form, zero]
  | cons a row ih =>
    cases r with
    | nil =>
      obtain rfl := List.eq_nil_of_length_eq_zero lengths.symm
      simp [form, zero]
    | cons ri r =>
      cases s with
      | nil => cases lengths
      | cons si s =>
        have rest := ih (Nat.succ.inj lengths)
        unfold form at rest ⊢
        simp only [List.zipWith_cons_cons, List.sum_cons] at rest ⊢
        rw [rest, linear]

theorem form_add (row : List Nat) {r s : List Int} (lengths : r.length = s.length) :
    form row (List.zipWith (· + ·) r s) = form row r + form row s :=
  form_zipWith row lengths (add_zero 0) fun a x y u v => by push_cast; ring

theorem form_sub (row : List Nat) {r s : List Int} (lengths : r.length = s.length) :
    form row (List.zipWith (· - ·) r s) = form row r - form row s :=
  form_zipWith row lengths (sub_zero 0) fun a x y u v => by push_cast; ring

theorem subWord_cast {c d : Nat} (small : c < 2 ^ 32) (wide : d < 2 ^ 32) :
    ((subWord c d : Nat) : ZMod Q) = c - d + if c + Q < d then 25 else 0 := by
  have none : ((Q : Nat) : ZMod Q) = 0 := ZMod.natCast_self Q
  rw [subWord, ZMod.natCast_mod]
  split_ifs with wraps
  · have below : c + Q + 2 ^ 64 - d < 2 ^ 64 := by omega
    have power : ((2 ^ 64 : Nat) : ZMod Q) = 25 := by
      have same : ((2 ^ 64 : Nat) : ZMod Q) = ((25 : Nat) : ZMod Q) :=
        (ZMod.natCast_eq_natCast_iff' _ _ _).mpr (by decide)
      rw [same, Nat.cast_ofNat]
    rw [Nat.mod_eq_of_lt below, Nat.cast_sub (by omega), Nat.cast_add, Nat.cast_add, none, power]
    ring
  · have moved : c + Q + 2 ^ 64 - d = (c + Q - d) + 2 ^ 64 := by omega
    have qSmall : Q < 2 ^ 33 := by decide
    rw [moved, Nat.add_mod_right, Nat.mod_eq_of_lt (by omega), Nat.cast_sub (by omega),
      Nat.cast_add, none]
    ring

/-- Zero less `Q + 1` is `24` and not `-1`. -/
example : subWord 0 (Q + 1) = 24 := by decide

theorem subWord_lt (c d : Nat) : subWord c d < Q := Nat.mod_lt _ (by decide)

end Obscura.Pqcommit
