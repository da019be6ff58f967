import Obscura.Group.Reduction
import Obscura.Lib.Magnitude

/-! # The encoding of class group elements

An element is written as the magnitudes of its first two coefficients, each behind its length
in two bytes, with a byte for the sign of the second. The decoder checks that the form has the
discriminant and is reduced, but not how its numbers are written: leading zero bytes, a sign
byte that is neither zero nor one and bytes after the end are accepted and forgotten.
-/

namespace Obscura.Group

open Wire

/-- The magnitudes of the first two coefficients, with the sign of the second. -/
def marshal (f : Form) : Bytes :=
  let ab := magnitude f.A.natAbs
  let bb := magnitude f.B.natAbs
  let bsign : UInt8 := if f.B < 0 then 1 else 0
  bigEndian 2 ab.length ++ ab ++ [bsign] ++ bigEndian 2 bb.length ++ bb

/-- The checks of `Unmarshal` on the coefficients. -/
def checkForm (D A B : ℤ) : Except String Form :=
  if A ≤ 0 then
    .error "classgroup: non-positive a"
  else
    let num := B * B - D
    let fourA := 4 * A
    let C := num / fourA
    if num % fourA ≠ 0 then
      .error "classgroup: element not on discriminant (4A ∤ B²−D)"
    else if B * B - fourA * C ≠ D then
      .error "classgroup: wrong discriminant"
    else if !equal (reduce D ⟨A, B, C⟩) ⟨A, B, C⟩ then
      .error "classgroup: form not reduced (non-canonical)"
    else
      .ok ⟨A, B, C⟩

/-- The form of an encoding, if it is reduced and of the group. -/
def unmarshal (D : ℤ) (buf : Bytes) : Except String Form :=
  if buf.length < 5 then
    .error "classgroup: short buffer"
  else
    let la := ofBigEndian (buf.take 2)
    let off := 2
    if buf.length < off + la + 3 then
      .error "classgroup: bad a length"
    else
      let A := ofBigEndian ((buf.drop off).take la)
      let off := off + la
      let bsign := (buf.drop off).headD 0
      let off := off + 1
      let lb := ofBigEndian ((buf.drop off).take 2)
      let off := off + 2
      if buf.length < off + lb then
        .error "classgroup: bad b length"
      else
        let B : ℤ := ofBigEndian ((buf.drop off).take lb)
        checkForm D A (if bsign = 1 then -B else B)

/-! ## The parts of a byte string -/

/-- Two magnitudes with a sign, and the bytes that follow. -/
structure Parts where
  a : Bytes
  sign : UInt8
  b : Bytes
  rest : Bytes

namespace Parts

/-- The encoding of the parts. -/
def bytes (p : Parts) : Bytes :=
  bigEndian 2 p.a.length ++ (p.a ++ (p.sign :: (bigEndian 2 p.b.length ++ (p.b ++ p.rest))))

/-- The lengths fit their two bytes. -/
def Sized (p : Parts) : Prop := p.a.length < 2 ^ 16 ∧ p.b.length < 2 ^ 16

/-- The first coefficient. -/
def A (p : Parts) : ℤ := ofBigEndian p.a

/-- The second coefficient. -/
def B (p : Parts) : ℤ := if p.sign = 1 then -(ofBigEndian p.b : ℤ) else ofBigEndian p.b

/-- The coefficients are those of a reduced form of the discriminant. -/
def Denotes (D : ℤ) (p : Parts) (f : Form) : Prop :=
  f.A = p.A ∧ f.B = p.B ∧ f.B ^ 2 - 4 * f.A * f.C = D ∧ QuadraticForms.Reduced f.A f.B f.C

/-- The numbers are written in the shortest way and nothing follows. -/
structure Tight (p : Parts) : Prop where
  a : Minimal p.a
  sign : p.sign = 0 ∨ p.sign = 1
  b : Minimal p.b
  rest : p.rest = []

/-- The parts that are written for a form. -/
def ofForm (f : Form) : Parts where
  a := magnitude f.A.natAbs
  sign := if f.B < 0 then 1 else 0
  b := magnitude f.B.natAbs
  rest := []

theorem bytes_ofForm (f : Form) : (ofForm f).bytes = marshal f := by
  simp only [bytes, ofForm, marshal, List.append_assoc, List.append_nil, List.nil_append,
    List.cons_append]

theorem length_value {bytes : Bytes} (small : bytes.length < 2 ^ 16) :
    ofBigEndian (bigEndian 2 bytes.length) = bytes.length := by
  rw [ofBigEndian_bigEndian, Nat.mod_eq_of_lt (small.trans_eq (by norm_num))]

/-- Different parts have different bytes. -/
theorem bytes_injective {p q : Parts} (sized : p.Sized) (sized' : q.Sized)
    (same : p.bytes = q.bytes) : p = q := by
  obtain ⟨pa, psign, pb, prest⟩ := p
  obtain ⟨qa, qsign, qb, qrest⟩ := q
  have lengths : ∀ n m, (bigEndian 2 n).length = (bigEndian 2 m).length := fun n m => by
    rw [length_bigEndian, length_bigEndian]
  obtain ⟨first, same⟩ := List.append_inj same (lengths _ _)
  obtain ⟨rfl, same⟩ := List.append_inj same
    (bigEndian_inj 2 sized.1 sized'.1 first)
  obtain ⟨rfl, same⟩ := List.cons_eq_cons.mp same
  obtain ⟨second, same⟩ := List.append_inj same (lengths _ _)
  obtain ⟨rfl, rfl⟩ := List.append_inj same (bigEndian_inj 2 sized.2 sized'.2 second)
  rfl

/-- A buffer with room for what its lengths announce has parts. -/
theorem exists_parts {buf : Bytes} (first : 2 + ofBigEndian (buf.take 2) + 3 ≤ buf.length)
    (second : 5 + ofBigEndian (buf.take 2) +
      ofBigEndian ((buf.drop (3 + ofBigEndian (buf.take 2))).take 2) ≤ buf.length) :
    ∃ p : Parts, p.Sized ∧ p.bytes = buf := by
  set la := ofBigEndian (buf.take 2) with lengthA
  set lb := ofBigEndian ((buf.drop (3 + la)).take 2) with lengthB
  have widthA : (buf.take 2).length = 2 := by rw [List.length_take]; omega
  have widthB : ((buf.drop (3 + la)).take 2).length = 2 := by
    rw [List.length_take, List.length_drop]
    omega
  have boundA := ofBigEndian_lt (buf.take 2)
  have boundB := ofBigEndian_lt ((buf.drop (3 + la)).take 2)
  rw [widthA, ← lengthA] at boundA
  rw [widthB, ← lengthB] at boundB
  have partA : ((buf.drop 2).take la).length = la := by
    rw [List.length_take, List.length_drop]
    omega
  have partB : ((buf.drop (5 + la)).take lb).length = lb := by
    rw [List.length_take, List.length_drop]
    omega
  have signed : buf.drop (2 + la) = (buf.drop (2 + la)).headD 0 :: buf.drop (3 + la) := by
    have inside : 2 + la < buf.length := by omega
    rw [List.drop_eq_getElem_cons inside, List.headD_cons]
    congr 2
    omega
  refine ⟨⟨(buf.drop 2).take la, (buf.drop (2 + la)).headD 0, (buf.drop (5 + la)).take lb,
    buf.drop (5 + la + lb)⟩, ⟨?_, ?_⟩, ?_⟩
  · exact partA.trans_lt boundA
  · exact partB.trans_lt boundB
  · rw [bytes]
    dsimp only
    have tailB : (buf.drop (5 + la)).take lb ++ buf.drop (5 + la + lb) = buf.drop (5 + la) := by
      have whole := List.take_append_drop lb (buf.drop (5 + la))
      rwa [List.drop_drop] at whole
    have headB : (buf.drop (3 + la)).take 2 ++ buf.drop (5 + la) = buf.drop (3 + la) := by
      have whole := List.take_append_drop 2 (buf.drop (3 + la))
      have sum : 3 + la + 2 = 5 + la := by omega
      rwa [List.drop_drop, sum] at whole
    have tailA : (buf.drop 2).take la ++ buf.drop (2 + la) = buf.drop 2 := by
      have whole := List.take_append_drop la (buf.drop 2)
      rwa [List.drop_drop] at whole
    rw [partA, partB, lengthA, lengthB, bigEndian_ofBigEndian widthA, bigEndian_ofBigEndian widthB,
      ← lengthA, ← lengthB, tailB, headB, ← signed, tailA, List.take_append_drop]

/-- The decoder reads the parts. -/
theorem unmarshal_bytes (D : ℤ) {p : Parts} (sized : p.Sized) :
    unmarshal D p.bytes = checkForm D p.A p.B := by
  have two : ∀ n, (bigEndian 2 n).length = 2 := length_bigEndian 2
  have length : p.bytes.length = 5 + p.a.length + p.b.length + p.rest.length := by
    simp only [bytes, List.length_append, List.length_cons, two]
    omega
  have lengthA : p.bytes.take 2 = bigEndian 2 p.a.length := List.take_left' (two _)
  have afterA : p.bytes.drop 2 =
      p.a ++ (p.sign :: (bigEndian 2 p.b.length ++ (p.b ++ p.rest))) := List.drop_left' (two _)
  have signed : p.bytes.drop (2 + p.a.length) =
      p.sign :: (bigEndian 2 p.b.length ++ (p.b ++ p.rest)) := by
    rw [← List.drop_drop, afterA, List.drop_left]
  have lengthB : p.bytes.drop (2 + p.a.length + 1) =
      bigEndian 2 p.b.length ++ (p.b ++ p.rest) := by
    rw [← List.drop_drop, signed, List.drop_succ_cons, List.drop_zero]
  have afterB : p.bytes.drop (2 + p.a.length + 1 + 2) = p.b ++ p.rest := by
    rw [← List.drop_drop, lengthB, List.drop_left' (two _)]
  unfold unmarshal
  rw [if_neg (by omega), lengthA, length_value sized.1]
  dsimp only
  rw [if_neg (by omega), afterA, List.take_left, signed, List.headD_cons, lengthB,
    List.take_left' (two _), length_value sized.2, if_neg (by omega), afterB, List.take_left]
  rfl

end Parts

/-! ## The checks -/

section Checks

variable {D : ℤ} {f : Form}

theorem reduce_self (reduced : QuadraticForms.Reduced f.A f.B f.C) : reduce D f = f := by
  have normal : normalize D f = f := if_pos ⟨reduced.above, reduced.below⟩
  obtain ⟨rounds, some⟩ : ∃ rounds, f.A.toNat = rounds + 1 :=
    ⟨f.A.toNat - 1, by have := reduced.positive; omega⟩
  rw [reduce, normal, some, reduceLoop]
  rcases reduced.le.lt_or_eq with below | edge
  · rw [if_pos below]
  · rw [if_neg edge.not_lt, if_pos edge, if_pos (reduced.edge edge)]

/-- What the check of a form accepts. -/
theorem checkForm_ok_iff (negative : D < 0) (residue : D % 8 = 1) {A B : ℤ} :
    checkForm D A B = .ok f ↔
      f.A = A ∧ f.B = B ∧ f.B ^ 2 - 4 * f.A * f.C = D ∧
        QuadraticForms.Reduced f.A f.B f.C := by
  constructor
  · intro accepted
    unfold checkForm at accepted
    dsimp only at accepted
    split_ifs at accepted with leading divides disc fixed
    obtain rfl := Except.ok.inj accepted
    obtain ⟨n, definite, rfl⟩ : ∃ n : ℤ, 0 < n ∧ D = 1 - 4 * n := ⟨(1 - D) / 4, by omega, by omega⟩
    rw [not_not] at disc
    have equation : B ^ 2 - 4 * A * ((B * B - (1 - 4 * n)) / (4 * A)) = 1 - 4 * n := by
      linear_combination disc
    have positive : Positive n ⟨A, B, (B * B - (1 - 4 * n)) / (4 * A)⟩ :=
      ⟨equation, not_le.mp leading⟩
    rw [Bool.not_eq_true', Bool.not_eq_false, equal_iff] at fixed
    have reduced := (reduce_spec definite positive).1.shape
    rw [fixed] at reduced
    exact ⟨rfl, rfl, equation, reduced⟩
  · rintro ⟨rfl, rfl, disc, reduced⟩
    have leading := reduced.positive
    have product : f.B * f.B - D = 4 * f.A * f.C := by linear_combination disc
    have quotient : (f.B * f.B - D) / (4 * f.A) = f.C := by
      rw [product, Int.mul_ediv_cancel_left _ (by omega)]
    unfold checkForm
    dsimp only
    rw [if_neg (not_le.mpr leading), quotient]
    rw [if_neg (by rw [product, not_not]; exact Int.mul_emod_right _ _)]
    rw [if_neg (by rw [not_not]; linear_combination product)]
    rw [if_neg (by rw [reduce_self reduced, Bool.not_eq_true, Bool.not_eq_false', equal_iff])]

/-- What the decoder accepts. -/
theorem unmarshal_ok_iff (negative : D < 0) (residue : D % 8 = 1) (d : Bytes) :
    unmarshal D d = .ok f ↔ ∃ p : Parts, p.Sized ∧ p.bytes = d ∧ p.Denotes D f := by
  constructor
  · intro accepted
    have parts : ∃ p : Parts, p.Sized ∧ p.bytes = d := by
      unfold unmarshal at accepted
      split at accepted
      · cases accepted
      · dsimp only at accepted
        split at accepted
        · cases accepted
        · rename_i shortA
          split at accepted
          · cases accepted
          · rename_i shortB
            refine Parts.exists_parts (not_lt.mp shortA) ?_
            have sum : 2 + ofBigEndian (d.take 2) + 1 = 3 + ofBigEndian (d.take 2) := by omega
            rw [sum] at shortB
            omega
    obtain ⟨p, sized, rfl⟩ := parts
    rw [Parts.unmarshal_bytes D sized, checkForm_ok_iff negative residue] at accepted
    exact ⟨p, sized, rfl, accepted⟩
  · rintro ⟨p, sized, rfl, denotes⟩
    rw [Parts.unmarshal_bytes D sized, checkForm_ok_iff negative residue]
    exact denotes

namespace Parts

theorem denotes_ofForm (disc : f.B ^ 2 - 4 * f.A * f.C = D)
    (reduced : QuadraticForms.Reduced f.A f.B f.C) : (ofForm f).Denotes D f := by
  have leading := reduced.positive
  refine ⟨?_, ?_, disc, reduced⟩
  · rw [A, ofForm, ofBigEndian_magnitude]
    omega
  · simp only [B, ofForm, ofBigEndian_magnitude]
    split_ifs with negative one
    · omega
    · exact absurd rfl one
    · rename_i zero
      exact absurd zero (by decide)
    · omega

theorem Denotes.sign (residue : D % 8 = 1) {p : Parts} (denotes : p.Denotes D f) :
    f.B ≠ 0 := by
  intro zero
  have disc := denotes.2.2.1
  rw [zero] at disc
  have even : D = 4 * -(f.A * f.C) := by linear_combination -disc
  omega

theorem Denotes.natAbs_A {p : Parts} (denotes : p.Denotes D f) :
    f.A.natAbs = ofBigEndian p.a := by
  rw [denotes.1, A, Int.natAbs_natCast]

theorem Denotes.natAbs_B {p : Parts} (denotes : p.Denotes D f) :
    f.B.natAbs = ofBigEndian p.b := by
  rw [denotes.2.1, B]
  split_ifs
  · rw [Int.natAbs_neg, Int.natAbs_natCast]
  · rw [Int.natAbs_natCast]

theorem Denotes.tight_iff (residue : D % 8 = 1) {p : Parts} (denotes : p.Denotes D f) :
    p.Tight ↔ p = ofForm f := by
  have signed := denotes.sign residue
  have below : f.B < 0 ↔ p.sign = 1 := by
    have same := denotes.2.1
    rw [B] at same
    split_ifs at same with one
    · refine ⟨fun _ => one, fun _ => ?_⟩
      omega
    · refine ⟨fun negative => absurd negative ?_, fun one' => absurd one' one⟩
      omega
  constructor
  · intro tight
    obtain ⟨a, sign, b, rest⟩ := p
    simp only [ofForm, mk.injEq]
    refine ⟨?_, ?_, ?_, tight.rest⟩
    · rw [denotes.natAbs_A, magnitude_ofBigEndian tight.a]
    · split_ifs with negative
      · exact below.mp negative
      · exact tight.sign.resolve_right fun one => negative (below.mpr one)
    · rw [denotes.natAbs_B, magnitude_ofBigEndian tight.b]
  · rintro rfl
    refine ⟨magnitude_minimal _, ?_, magnitude_minimal _, rfl⟩
    rw [ofForm]
    dsimp only
    split_ifs
    · exact Or.inr rfl
    · exact Or.inl rfl

theorem Denotes.sized {p : Parts} (denotes : p.Denotes D f) (sized : p.Sized) :
    (ofForm f).Sized := by
  rw [Sized, ofForm, denotes.natAbs_A, denotes.natAbs_B]
  exact ⟨(length_magnitude_le p.a).trans_lt sized.1, (length_magnitude_le p.b).trans_lt sized.2⟩

end Parts

/-- **Aliases of an element.** Every reduced form with coefficients of less than `2 ^ 16` bytes
is decoded from its own encoding. A byte string is the encoding of whatever it is decoded to
exactly if it writes the coefficients of reduced forms in the shortest way only. -/
theorem encoding_aliases (negative : D < 0) (residue : D % 8 = 1) :
    (∀ f : Form, f.B ^ 2 - 4 * f.A * f.C = D → QuadraticForms.Reduced f.A f.B f.C →
      (magnitude f.A.natAbs).length < 2 ^ 16 → (magnitude f.B.natAbs).length < 2 ^ 16 →
        unmarshal D (marshal f) = .ok f) ∧
    ∀ d : Bytes, (∀ f, unmarshal D d = .ok f → marshal f = d) ↔
      ∀ p : Parts, p.Sized → p.bytes = d → (∃ f, p.Denotes D f) → p.Tight := by
  refine ⟨fun f disc reduced shortA shortB => ?_, fun d => ⟨?_, ?_⟩⟩
  · rw [unmarshal_ok_iff negative residue]
    exact ⟨Parts.ofForm f, ⟨shortA, shortB⟩, Parts.bytes_ofForm f,
      Parts.denotes_ofForm disc reduced⟩
  · rintro canonical p sized rfl ⟨f, denotes⟩
    have own := canonical f ((unmarshal_ok_iff negative residue _).mpr ⟨p, sized, rfl, denotes⟩)
    rw [denotes.tight_iff residue]
    rw [← Parts.bytes_ofForm] at own
    exact (Parts.bytes_injective (denotes.sized sized) sized own).symm
  · intro tight f accepted
    obtain ⟨p, sized, rfl, denotes⟩ := (unmarshal_ok_iff negative residue _).mp accepted
    rw [← Parts.bytes_ofForm, ← (denotes.tight_iff residue).mp (tight p sized rfl ⟨f, denotes⟩)]

end Checks

/-- **One element, several encodings.** A leading zero byte, another sign byte and a byte after
the end are read as if they were not there. -/
theorem encoding_alias :
    (unmarshal (-23) [0, 2, 0, 2, 0, 0, 1, 1] = .ok ⟨2, 1, 3⟩ ∧
      marshal ⟨2, 1, 3⟩ ≠ [0, 2, 0, 2, 0, 0, 1, 1]) ∧
    (unmarshal (-23) [0, 1, 2, 7, 0, 1, 1] = .ok ⟨2, 1, 3⟩ ∧
      marshal ⟨2, 1, 3⟩ ≠ [0, 1, 2, 7, 0, 1, 1]) ∧
    unmarshal (-23) [0, 1, 2, 0, 0, 1, 1, 9] = .ok ⟨2, 1, 3⟩ ∧
      marshal ⟨2, 1, 3⟩ ≠ [0, 1, 2, 0, 0, 1, 1, 9] := by
  have read : ∀ p : Parts, p.Sized → p.A = 2 → p.B = 1 →
      unmarshal (-23) p.bytes = .ok ⟨2, 1, 3⟩ := fun p sized first second =>
    (unmarshal_ok_iff (by decide) (by decide) _).mpr ⟨p, sized, rfl, first.symm, second.symm,
      by decide, ⟨by decide, by decide, by decide, by decide, by decide⟩⟩
  refine ⟨⟨?_, by decide⟩, ⟨?_, by decide⟩, ?_, by decide⟩
  · exact read ⟨[0, 2], 0, [1], []⟩ (by unfold Parts.Sized; decide) rfl rfl
  · exact read ⟨[2], 7, [1], []⟩ (by unfold Parts.Sized; decide) rfl rfl
  · exact read ⟨[2], 0, [1], [9]⟩ (by unfold Parts.Sized; decide) rfl rfl

/-- The encodings of the forms of discriminant `-23`. -/
theorem encoding_aliases_23 : unmarshal (-23) (marshal ⟨2, 1, 3⟩) = .ok ⟨2, 1, 3⟩ :=
  (@encoding_aliases (-23) (by decide) (by decide)).1 ⟨2, 1, 3⟩ (by decide)
    ⟨by decide, by decide, by decide, by decide, by decide⟩ (by decide) (by decide)

end Obscura.Group
