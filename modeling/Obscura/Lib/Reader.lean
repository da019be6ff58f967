import Mathlib.Data.List.Forall2
import Obscura.Lib.Wire

/-! # Readers

Decoders that consume a byte string from the front and may refuse it. Two notions
connect a decoder with an encoder. A reader *reads* an encoder back on a set of values
when a code followed by anything gives the value and what follows (`Reads`). A reader
*yields* a set of values when it returns nothing else, whatever the input (`Yields`).
Both are closed under sequencing and counted repetition.
-/

namespace Wire

/-- A reader takes bytes off the front of its input or fails. -/
abbrev Reader := StateT Bytes (Except String)

namespace Reader

variable {α β : Type}

/-- The bytes left. -/
def remaining : Reader Nat := fun input => .ok (input.length, input)

/-- Exactly `count` bytes. -/
def readFull (count : Nat) : Reader Bytes := fun input =>
  if count ≤ input.length then
    .ok (input.take count, input.drop count)
  else
    .error (if input = [] then "EOF" else "unexpected EOF")

/-- One byte. -/
def readByte : Reader UInt8
  | [] => .error "EOF"
  | byte :: rest => .ok (byte, rest)

/-- Refuse when a condition holds. -/
def refuse (bad : Prop) [Decidable bad] (message : String) : Reader Unit :=
  if bad then throw message else pure ()

/-- The same reader several times. -/
def times (reader : Reader α) : Nat → Reader (List α)
  | 0 => pure []
  | count + 1 => do
      let value ← reader
      let values ← times reader count
      pure (value :: values)

/-- The outcome of another decoder. -/
def ofOutcome (outcome : Except String α) : Reader α := fun input =>
  outcome.map fun value => (value, input)

/-- A big-endian integer of a fixed width. -/
def readUInt (width : Nat) : Reader Nat := do
  let bytes ← readFull width
  pure (ofBigEndian bytes)

/-! ## Running a reader -/

theorem bind_run {reader : Reader α} {next : α → Reader β} {input rest : Bytes} {value : α}
    (read : reader input = .ok (value, rest)) : (reader >>= next) input = next value rest := by
  change (reader input >>= fun out => next out.1 out.2) = _
  rw [read]
  rfl

theorem bind_ok {reader : Reader α} {next : α → Reader β} {input : Bytes} {result : β × Bytes} :
    (reader >>= next) input = .ok result ↔
      ∃ value rest, reader input = .ok (value, rest) ∧ next value rest = .ok result := by
  change (reader input >>= fun out => next out.1 out.2) = _ ↔ _
  cases read : reader input with
  | error message => simp [bind, Except.bind]
  | ok out => simp [bind, Except.bind, Prod.ext_iff]

theorem pure_ok {value : α} {input : Bytes} {result : α × Bytes} :
    (pure value : Reader α) input = .ok result ↔ result = (value, input) := by
  change Except.ok (value, input) = Except.ok result ↔ _
  rw [Except.ok.injEq, eq_comm]

theorem refuse_ok {bad : Prop} [Decidable bad] {message : String} {input : Bytes}
    {result : Unit × Bytes} :
    refuse bad message input = .ok result ↔ ¬ bad ∧ result.2 = input := by
  unfold refuse
  split_ifs with holds
  · constructor
    · exact fun impossible => nomatch impossible
    · exact fun facts => absurd holds facts.1
  · rw [pure_ok]
    constructor
    · rintro rfl
      exact ⟨holds, rfl⟩
    · rintro ⟨-, same⟩
      exact Prod.ext rfl same

theorem refuse_run {bad : Prop} [Decidable bad] (fine : ¬ bad) (message : String)
    {next : Unit → Reader β} (input : Bytes) :
    (refuse bad message >>= next) input = next () input :=
  bind_run (refuse_ok.mpr ⟨fine, rfl⟩)

theorem remaining_run {next : Nat → Reader β} (input : Bytes) :
    (remaining >>= next) input = next input.length input :=
  bind_run rfl

theorem ofOutcome_ok {outcome : Except String α} {input : Bytes} {result : α × Bytes} :
    ofOutcome outcome input = .ok result ↔ outcome = .ok result.1 ∧ result.2 = input := by
  unfold ofOutcome
  cases outcome with
  | error message => simp [Except.map]
  | ok value =>
    simp only [Except.map, Except.ok.injEq, Prod.ext_iff]
    exact and_congr Iff.rfl eq_comm

theorem readFull_append {bytes : Bytes} {count : Nat} (length : bytes.length = count)
    (rest : Bytes) : readFull count (bytes ++ rest) = .ok (bytes, rest) := by
  rw [readFull, if_pos (by simp [← length]), List.take_left' length, List.drop_left' length]

theorem readFull_ok {count : Nat} {input : Bytes} {result : Bytes × Bytes}
    (read : readFull count input = .ok result) : result.1.length = count := by
  unfold readFull at read
  split_ifs at read with enough
  obtain rfl := Except.ok.inj read
  exact List.length_take_of_le enough

/-! ## Reading an encoder back -/

/-- A valid value's code, followed by anything, is read back as the value. -/
def Reads (reader : Reader α) (encode : α → Bytes) (valid : α → Prop) : Prop :=
  ∀ value, valid value → ∀ rest, reader (encode value ++ rest) = .ok (value, rest)

/-- The reader returns only valid values. -/
def Yields (reader : Reader α) (valid : α → Prop) : Prop :=
  ∀ input value rest, reader input = .ok (value, rest) → valid value

namespace Reads

variable {reader : Reader α} {encode : α → Bytes} {valid : α → Prop}

theorem run (reads : Reads reader encode valid) {value : α} (fits : valid value)
    {next : α → Reader β} (rest : Bytes) :
    (reader >>= next) (encode value ++ rest) = next value rest :=
  bind_run (reads value fits rest)

theorem parse (reads : Reads reader encode valid) {value : α} (fits : valid value) :
    (reader (encode value)).map Prod.fst = .ok value := by
  have read := reads value fits []
  rw [List.append_nil] at read
  rw [read]
  rfl

theorem times (reads : Reads reader encode valid) (values : List α)
    (fit : ∀ value ∈ values, valid value) (rest : Bytes) :
    Reader.times reader values.length (values.flatMap encode ++ rest) = .ok (values, rest) := by
  induction values with
  | nil => rfl
  | cons value values ih =>
    rw [List.length_cons, Reader.times, List.flatMap_cons, List.append_assoc,
      reads.run (fit value List.mem_cons_self),
      bind_run (ih fun other member => fit other (List.mem_cons_of_mem _ member))]
    rfl

end Reads

namespace Yields

variable {reader : Reader α} {valid : α → Prop}

theorem bind {next : α → Reader β} {post : β → Prop} (yields : Yields reader valid)
    (after : ∀ value, valid value → Yields (next value) post) : Yields (reader >>= next) post := by
  intro input result rest read
  obtain ⟨value, middle, first, second⟩ := bind_ok.mp read
  exact after value (yields input value middle first) middle result rest second

theorem pure {value : α} (holds : valid value) : Yields (Pure.pure value) valid := by
  intro input result rest read
  obtain ⟨rfl, -⟩ := Prod.mk.inj (pure_ok.mp read)
  exact holds

theorem parse (yields : Yields reader valid) {data : Bytes} {value : α}
    (read : (reader data).map Prod.fst = .ok value) : valid value := by
  cases run : reader data with
  | error message => simp [run, Except.map] at read
  | ok out =>
    rw [run] at read
    obtain rfl := Except.ok.inj read
    exact yields data out.1 out.2 run

theorem trivial (reader : Reader α) : Yields reader fun _ => True :=
  fun _ _ _ _ => True.intro

theorem refuse {bad : Prop} [Decidable bad] (message : String) :
    Yields (Reader.refuse bad message) fun _ => ¬ bad :=
  fun _ _ _ read => (refuse_ok.mp read).1

theorem times (yields : Yields reader valid) (count : Nat) :
    Yields (Reader.times reader count) fun values =>
      values.length = count ∧ ∀ value ∈ values, valid value := by
  induction count with
  | zero => exact pure ⟨rfl, by simp⟩
  | succ count ih =>
    refine yields.bind fun value fits => ih.bind fun values rest => pure ⟨?_, ?_⟩
    · rw [List.length_cons, rest.1]
    · simpa using ⟨fits, rest.2⟩

end Yields

theorem times_ok {reader : Reader β} {encode : α → Bytes} {related : α → β → Prop}
    {values : List α} (stops : ∀ value ∈ values, ∀ rest result rest',
      reader (encode value ++ rest) = .ok (result, rest') → rest' = rest ∧ related value result)
    {rest rest' : Bytes} {results : List β}
    (read : times reader values.length (values.flatMap encode ++ rest) = .ok (results, rest')) :
    rest' = rest ∧ List.Forall₂ related values results := by
  induction values generalizing results with
  | nil =>
    obtain ⟨rfl, rfl⟩ := Prod.mk.inj (pure_ok.mp read)
    exact ⟨rfl, .nil⟩
  | cons value values ih =>
    rw [List.length_cons, times, List.flatMap_cons, List.append_assoc] at read
    obtain ⟨result, middle, first, read⟩ := bind_ok.mp read
    obtain ⟨rfl, relates⟩ := stops value List.mem_cons_self _ _ _ first
    obtain ⟨more, last, others, read⟩ := bind_ok.mp read
    obtain ⟨rfl, rfl⟩ := Prod.mk.inj (pure_ok.mp read)
    obtain ⟨rfl, relatesMore⟩ :=
      ih (fun other member => stops other (List.mem_cons_of_mem _ member)) others
    exact ⟨rfl, .cons relates relatesMore⟩

/-- From the code of a value, followed by anything, nothing but the value is read. -/
def Faithful (reader : Reader α) (encode : α → Bytes) (coded : α → Prop) : Prop :=
  ∀ value, coded value → ∀ rest out, reader (encode value ++ rest) = .ok out → out = (value, rest)

namespace Faithful

variable {reader : Reader α} {encode : α → Bytes} {coded : α → Prop}

theorem next (faithful : Faithful reader encode coded) {value : α} (fits : coded value)
    {after : α → Reader β} {rest : Bytes} {out : β × Bytes}
    (read : (reader >>= after) (encode value ++ rest) = .ok out) : after value rest = .ok out := by
  obtain ⟨got, middle, first, second⟩ := bind_ok.mp read
  obtain ⟨rfl, rfl⟩ := Prod.mk.inj (faithful value fits rest _ first)
  exact second

theorem times (faithful : Faithful reader encode coded) {values : List α}
    (fit : ∀ value ∈ values, coded value) {rest : Bytes} {out : List α × Bytes}
    (read : Reader.times reader values.length (values.flatMap encode ++ rest) = .ok out) :
    out = (values, rest) := by
  obtain ⟨results, rest'⟩ := out
  have stops : ∀ value ∈ values, ∀ rest result rest',
      reader (encode value ++ rest) = .ok (result, rest') → rest' = rest ∧ value = result := by
    intro value member rest result rest' read
    obtain ⟨rfl, rfl⟩ := Prod.mk.inj (faithful value (fit value member) rest _ read)
    exact ⟨rfl, rfl⟩
  obtain ⟨rfl, same⟩ := times_ok stops read
  exact Prod.ext (List.forall₂_eq_eq_eq ▸ same).symm rfl

/-- A code decoded on its own. -/
theorem parse (faithful : Faithful reader encode coded) {value got : α} (fits : coded value)
    (decoded : (reader (encode value)).map Prod.fst = .ok got) : got = value := by
  cases run : reader (encode value) with
  | error message => simp [run, Except.map] at decoded
  | ok out =>
    rw [run] at decoded
    obtain rfl := Except.ok.inj decoded
    rw [← List.append_nil (encode value)] at run
    rw [faithful value fits [] out run]

end Faithful

theorem Reads.faithful {reader : Reader α} {encode : α → Bytes} {valid : α → Prop}
    (reads : Reads reader encode valid) : Faithful reader encode valid := by
  intro value fits rest out read
  rw [reads value fits rest] at read
  exact (Except.ok.inj read).symm

theorem readUInt_reads (width : Nat) : Reads (readUInt width) (bigEndian width) (· < 256 ^ width) := by
  intro number small rest
  rw [readUInt, bind_run (readFull_append (length_bigEndian width number) rest),
    ofBigEndian_bigEndian, Nat.mod_eq_of_lt small]
  rfl

end Reader

end Wire
