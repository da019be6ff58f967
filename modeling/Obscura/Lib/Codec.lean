import Obscura.Lib.Reader

/-! # Exact readers

What a reader accepts, as a relation between values and their codes. A reader *accepts* a
relation on a set of values when it returns a value exactly when the value is in the set and
the input starts with one of its codes (`Accepts`); a value may have several codes, and then
the reader takes each of them. A record is read field by field: the reader of the fields that
are left accepts the records that agree with the fields already read (`Accepts.field`).
-/

namespace Wire

namespace Reader

variable {α β : Type}

/-- What the reader accepts is a valid value and one of its codes. -/
def Accepts (reader : Reader α) (valid : α → Prop) (code : α → Bytes → Prop) : Prop :=
  ∀ input value rest, reader input = .ok (value, rest) ↔
    valid value ∧ ∃ bytes, code value bytes ∧ input = bytes ++ rest

/-- The relation that gives a value one code. -/
def Coded (encode : α → Bytes) (value : α) (bytes : Bytes) : Prop := bytes = encode value

namespace Accepts

variable {reader : Reader α} {valid : α → Prop} {code : α → Bytes → Prop}

theorem congr (accepts : Accepts reader valid code) {valid' : α → Prop}
    {code' : α → Bytes → Prop} (same : ∀ value, valid value ↔ valid' value)
    (codes : ∀ value bytes, code value bytes ↔ code' value bytes) :
    Accepts reader valid' code' := by
  intro input value rest
  rw [accepts, same]
  exact and_congr_right fun _ => exists_congr fun bytes => and_congr_left fun _ => codes value bytes

/-- A codec is exact. -/
theorem ok_iff {encode : α → Bytes} (accepts : Accepts reader valid (Coded encode))
    {input rest : Bytes} {value : α} :
    reader input = .ok (value, rest) ↔ valid value ∧ input = encode value ++ rest := by
  rw [accepts]
  refine and_congr_right fun _ => ?_
  constructor
  · rintro ⟨_, rfl, rfl⟩
    rfl
  · exact fun same => ⟨encode value, rfl, same⟩

theorem of_ok_iff {encode : α → Bytes} (exact : ∀ input value rest,
      reader input = .ok (value, rest) ↔ valid value ∧ input = encode value ++ rest) :
    Accepts reader valid (Coded encode) := by
  intro input value rest
  rw [exact]
  refine and_congr_right fun _ => ?_
  constructor
  · exact fun same => ⟨encode value, rfl, same⟩
  · rintro ⟨_, rfl, rfl⟩
    rfl

theorem pure {value : α} {agrees : α → Prop} (only : ∀ other, agrees other ↔ other = value) :
    Accepts (Pure.pure value) (fun other => agrees other ∧ True) (Coded fun _ => []) := by
  refine of_ok_iff fun input other rest => ?_
  rw [pure_ok, and_true, only, Prod.mk.injEq, List.nil_append]
  exact and_congr_right fun _ => eq_comm

theorem field (accepts : Accepts reader valid code) (get : β → α) {next : α → Reader β}
    {agrees later : β → Prop} {after : β → Bytes → Prop}
    (others : ∀ value, Accepts (next value)
      (fun record => (agrees record ∧ get record = value) ∧ later record) after) :
    Accepts (reader >>= next) (fun record => agrees record ∧ valid (get record) ∧ later record)
      fun record bytes => ∃ first second,
        code (get record) first ∧ after record second ∧ bytes = first ++ second := by
  intro input record rest
  rw [bind_ok]
  constructor
  · rintro ⟨value, middle, read, remaining⟩
    obtain ⟨fits, first, coded, rfl⟩ := (accepts _ _ _).mp read
    obtain ⟨⟨⟨agreed, rfl⟩, others⟩, second, more, rfl⟩ := (others value _ _ _).mp remaining
    exact ⟨⟨agreed, fits, others⟩, first ++ second, ⟨first, second, coded, more, rfl⟩,
      (List.append_assoc _ _ _).symm⟩
  · rintro ⟨⟨agreed, fits, follow⟩, _, ⟨first, second, coded, more, rfl⟩, rfl⟩
    refine ⟨get record, second ++ rest, (accepts _ _ _).mpr ⟨fits, first, coded, ?_⟩,
      (others _ _ _ _).mpr ⟨⟨⟨agreed, rfl⟩, follow⟩, second, more, rfl⟩⟩
    exact List.append_assoc _ _ _

theorem fieldCoded {encode : α → Bytes} (accepts : Accepts reader valid (Coded encode))
    (get : β → α) {next : α → Reader β} {agrees later : β → Prop} {encodeRest : β → Bytes}
    (others : ∀ value, Accepts (next value)
      (fun record => (agrees record ∧ get record = value) ∧ later record) (Coded encodeRest)) :
    Accepts (reader >>= next) (fun record => agrees record ∧ valid (get record) ∧ later record)
      (Coded fun record => encode (get record) ++ encodeRest record) := by
  refine (accepts.field get others).congr (fun _ => Iff.rfl) fun record bytes => ?_
  constructor
  · rintro ⟨_, _, rfl, rfl, same⟩
    exact same
  · exact fun same => ⟨_, _, rfl, rfl, same⟩

theorem start (accepts : Accepts reader (fun value => True ∧ valid value) code) :
    Accepts reader valid code :=
  accepts.congr (fun _ => by rw [true_and]) fun _ _ => Iff.rfl

end Accepts

end Reader

end Wire
