import Obscura.Lib.Reader

/-! # Byte layouts

A description of byte strings as nested length-prefixed and counted parts, with a
recogniser. A string is *tidy* for a layout when every flag is one of its two bytes and
every framed part fills its frame (`Layout.scan`). The notion relates a reader to an
encoder: of a string the reader accepted, the layout says whether it is the code of the
value that was read (`Tracks`).
-/

namespace Wire

/-- How the bytes of an encoding are laid out, as far as a reader looks at it. -/
inductive Layout where
  /-- A number of bytes. -/
  | fixed (width : Nat)
  /-- The byte of a boolean. -/
  | flag
  /-- Bytes behind their four-byte length. -/
  | field
  /-- A part behind its four-byte length. -/
  | framed (content : Layout)
  /-- Items behind their count. -/
  | counted (width : Nat) (item : Layout)
  | seq (first second : Layout)

namespace Layout

/-- Parts one after the other. -/
def record (parts : List Layout) : Layout := parts.foldr seq (fixed 0)

/-- Drop a number of bytes. -/
def skip (count : Nat) (input : Bytes) : Option Bytes :=
  if count ≤ input.length then some (input.drop count) else none

/-- The same recogniser several times. -/
def scanTimes (scan : Bytes → Option Bytes) : Nat → Bytes → Option Bytes
  | 0, input => some input
  | count + 1, input => (scan input).bind (scanTimes scan count)

/-- What follows a tidy string at the front of the input. -/
def scan : Layout → Bytes → Option Bytes
  | fixed width, input => skip width input
  | flag, input => (skip 1 input).filter fun _ => (input.head?.getD 0).toNat ≤ 1
  | field, input =>
    (skip 4 input).bind fun rest => skip (ofBigEndian (input.take 4)) rest
  | framed content, input =>
    (skip 4 input).bind fun rest =>
      let length := ofBigEndian (input.take 4)
      (skip length rest).filter fun _ => scan content (rest.take length) = some []
  | counted width item, input =>
    (skip width input).bind (scanTimes (scan item) (ofBigEndian (input.take width)))
  | seq first second, input => (scan first input).bind (scan second)

theorem skip_append {bytes : Bytes} {count : Nat} (length : bytes.length = count) (rest : Bytes) :
    skip count (bytes ++ rest) = some rest := by
  rw [skip, if_pos (by simp [← length]), List.drop_left' length]

end Layout

/-! ## Layouts and codes -/

/-- Of an input from which `code` was read, with `rest` left over, the layout says
whether it starts with that code. -/
structure Layout.Tells (layout : Layout) (input code rest : Bytes) : Prop where
  length : code.length + rest.length ≤ input.length
  tidy : (layout.scan input = some rest ∧ input = code ++ rest) ∨
    (layout.scan input = none ∧ ∀ after, input ≠ code ++ after)

namespace Layout.Tells

theorem exact {layout : Layout} {code rest : Bytes}
    (scan : layout.scan (code ++ rest) = some rest) : layout.Tells (code ++ rest) code rest where
  length := by rw [List.length_append]
  tidy := Or.inl ⟨scan, rfl⟩

theorem nothing (input : Bytes) : (Layout.fixed 0).Tells input [] input := by
  have scan : (Layout.fixed 0).scan ([] ++ input) = some input := by
    rw [Layout.scan]
    exact @skip_append [] 0 rfl input
  exact exact scan

/-- Two layouts tell what both parts tell. -/
theorem seq {first second : Layout} {input code middle code' rest : Bytes}
    (before : first.Tells input code middle) (after : second.Tells middle code' rest) :
    (first.seq second).Tells input (code ++ code') rest := by
  constructor
  case length =>
    have := before.length
    have := after.length
    rw [List.length_append]
    omega
  case tidy =>
    rcases before.tidy with ⟨scan, rfl⟩ | ⟨scan, other⟩
    · rcases after.tidy with ⟨scan', rfl⟩ | ⟨scan', other'⟩
      · refine Or.inl ⟨?_, by rw [List.append_assoc]⟩
        rw [Layout.scan, scan, Option.bind_some, scan']
      · refine Or.inr ⟨?_, fun after same => ?_⟩
        · rw [Layout.scan, scan, Option.bind_some, scan']
        · rw [List.append_assoc] at same
          exact other' after (List.append_cancel_left same)
    · refine Or.inr ⟨?_, fun after same => ?_⟩
      · rw [Layout.scan, scan, Option.bind_none]
      · rw [List.append_assoc] at same
        exact other _ same

end Layout.Tells

namespace Reader

variable {α β : Type}

/-- Every run of the reader is told by the layout, for a code related to the value. -/
def Tracks (reader : Reader α) (layout : Layout) (coded : α → Bytes → Prop) : Prop :=
  ∀ ⦃input value rest⦄, reader input = .ok (value, rest) →
    ∃ code, coded value code ∧ layout.Tells input code rest

/-- Every run is told by the layout, for the code of the value that was read. -/
abbrev Follows (reader : Reader α) (layout : Layout) (encode : α → Bytes) : Prop :=
  Tracks reader layout fun value code => code = encode value

/-- A reader that consumes nothing. -/
def Silent (reader : Reader α) : Prop :=
  ∀ ⦃input value rest⦄, reader input = .ok (value, rest) → rest = input

theorem remaining_silent : Silent remaining := by
  intro input value rest read
  exact (Prod.mk.inj (Except.ok.inj read)).2.symm

theorem refuse_silent {bad : Prop} [Decidable bad] {message : String} :
    Silent (refuse bad message) :=
  fun _ _ _ read => (refuse_ok.mp read).2

theorem Silent.bind_ok {reader : Reader α} (quiet : Silent reader) {next : α → Reader β}
    {input : Bytes} {result : β × Bytes} (read : (reader >>= next) input = .ok result) :
    ∃ value, reader input = .ok (value, input) ∧ next value input = .ok result := by
  obtain ⟨value, middle, first, second⟩ := Reader.bind_ok.mp read
  obtain rfl := quiet first
  exact ⟨value, first, second⟩

namespace Tracks

variable {reader : Reader α} {layout : Layout} {encode : α → Bytes} {coded : β → Bytes → Prop}

theorem bind {second : Layout} {next : α → Reader β}
    (follows : Follows reader layout encode)
    (after : ∀ value, Tracks (next value) second fun result code =>
      coded result (encode value ++ code)) :
    Tracks (reader >>= next) (layout.seq second) coded := by
  intro input result rest read
  obtain ⟨value, middle, first, read⟩ := bind_ok.mp read
  obtain ⟨_, rfl, tells⟩ := follows first
  obtain ⟨code, holds, tells'⟩ := after value read
  exact ⟨_, holds, tells.seq tells'⟩

theorem silent {next : α → Reader β} (quiet : Silent reader)
    (after : ∀ value, Tracks (next value) layout coded) :
    Tracks (reader >>= next) layout coded := by
  intro input result rest read
  obtain ⟨value, _, read⟩ := quiet.bind_ok read
  exact after value read

theorem pure {value : α} {coded : α → Bytes → Prop} (holds : coded value []) :
    Tracks (Pure.pure value) (.fixed 0) coded := by
  intro input result rest read
  obtain ⟨rfl, rfl⟩ := Prod.mk.inj (pure_ok.mp read)
  exact ⟨[], holds, .nothing rest⟩

theorem exact {reader : Reader α} {layout : Layout} {encode : α → Bytes}
    (reads : ∀ ⦃input value rest⦄, reader input = .ok (value, rest) →
      input = encode value ++ rest ∧ layout.scan (encode value ++ rest) = some rest) :
    Follows reader layout encode := by
  intro input value rest read
  obtain ⟨rfl, scan⟩ := reads read
  exact ⟨_, rfl, .exact scan⟩

end Tracks

/-! ## The readers of the library -/

theorem readFull_split {count : Nat} {input bytes rest : Bytes}
    (read : readFull count input = .ok (bytes, rest)) :
    input = bytes ++ rest ∧ bytes.length = count := by
  refine ⟨?_, readFull_ok read⟩
  unfold readFull at read
  split_ifs at read
  obtain ⟨rfl, rfl⟩ := Prod.mk.inj (Except.ok.inj read)
  exact (List.take_append_drop count input).symm

theorem readUInt_split {width : Nat} {input rest : Bytes} {number : Nat}
    (read : readUInt width input = .ok (number, rest)) :
    input = bigEndian width number ++ rest ∧ number < 256 ^ width := by
  obtain ⟨bytes, middle, first, read⟩ := bind_ok.mp read
  obtain ⟨rfl, rfl⟩ := Prod.mk.inj (pure_ok.mp read)
  obtain ⟨rfl, length⟩ := readFull_split first
  have bound := ofBigEndian_lt bytes
  rw [bigEndian_ofBigEndian length]
  exact ⟨rfl, by rwa [length] at bound⟩

theorem readFull_follows (count : Nat) : Follows (readFull count) (.fixed count) id := by
  refine Tracks.exact fun input bytes rest read => ?_
  obtain ⟨split, length⟩ := readFull_split read
  exact ⟨split, Layout.skip_append length rest⟩

theorem readUInt_follows (width : Nat) :
    Follows (readUInt width) (.fixed width) (bigEndian width) := by
  refine Tracks.exact fun input number rest read => ?_
  exact ⟨(readUInt_split read).1, Layout.skip_append (length_bigEndian width number) rest⟩

theorem readByte_follows : Follows readByte (.fixed 1) fun byte => [byte] := by
  refine Tracks.exact fun input byte rest read => ?_
  cases input with
  | nil => exact nomatch read
  | cons first tail =>
    obtain ⟨rfl, rfl⟩ := Prod.mk.inj (Except.ok.inj read)
    exact ⟨rfl, @Layout.skip_append [first] 1 rfl tail⟩

section Counted

variable {item : Reader α} {layout : Layout} {encode : α → Bytes}

/-- The values of a counted list, and what their layout tells. -/
theorem times_tells (follows : Follows item layout encode)
    {count : Nat} {input rest : Bytes} {values : List α}
    (read : times item count input = .ok (values, rest)) :
    values.length = count ∧ (values.flatMap encode).length + rest.length ≤ input.length ∧
      ((Layout.scanTimes layout.scan count input = some rest ∧
          input = values.flatMap encode ++ rest) ∨
        (Layout.scanTimes layout.scan count input = none ∧
          ∀ after, input ≠ values.flatMap encode ++ after)) := by
  induction count generalizing input values with
  | zero =>
    obtain ⟨rfl, rfl⟩ := Prod.mk.inj (pure_ok.mp read)
    exact ⟨rfl, by simp, Or.inl ⟨rfl, rfl⟩⟩
  | succ count ih =>
    obtain ⟨value, middle, first, read⟩ := bind_ok.mp read
    obtain ⟨values', rest', others, read⟩ := bind_ok.mp read
    obtain ⟨rfl, rfl⟩ := Prod.mk.inj (pure_ok.mp read)
    obtain ⟨_, rfl, tells⟩ := follows first
    obtain ⟨length, bound, tidy⟩ := ih others
    have firstBound := tells.length
    refine ⟨by rw [List.length_cons, length], ?_, ?_⟩
    · rw [List.flatMap_cons, List.length_append]
      omega
    rw [Layout.scanTimes, List.flatMap_cons]
    rcases tells.tidy with ⟨scan, rfl⟩ | ⟨scan, other⟩
    · rw [scan, Option.bind_some]
      rcases tidy with ⟨scan', rfl⟩ | ⟨scan', other⟩
      · exact Or.inl ⟨scan', by rw [List.append_assoc]⟩
      · refine Or.inr ⟨scan', fun after same => ?_⟩
        rw [List.append_assoc] at same
        exact other after (List.append_cancel_left same)
    · rw [scan, Option.bind_none]
      refine Or.inr ⟨rfl, fun after same => ?_⟩
      rw [List.append_assoc] at same
      exact other _ same

/-- A counted list whose count was read first. -/
theorem counted_tells (follows : Follows item layout encode)
    {width count : Nat} {input middle rest : Bytes} {values : List α}
    (first : readUInt width input = .ok (count, middle))
    (read : times item count middle = .ok (values, rest)) :
    (Layout.counted width layout).Tells input
      (bigEndian width values.length ++ values.flatMap encode) rest := by
  obtain ⟨rfl, small⟩ := readUInt_split first
  obtain ⟨rfl, bound, tidy⟩ := times_tells follows read
  have scan : (Layout.counted width layout).scan (bigEndian width values.length ++ middle) =
      Layout.scanTimes layout.scan values.length middle := by
    have length := length_bigEndian width values.length
    rw [Layout.scan, Layout.skip_append length, List.take_left' length, ofBigEndian_bigEndian,
      Nat.mod_eq_of_lt small]
    rfl
  constructor
  case length =>
    rw [List.length_append, List.length_append]
    omega
  case tidy =>
    rw [scan]
    rcases tidy with ⟨scan', rfl⟩ | ⟨scan', other⟩
    · exact Or.inl ⟨scan', by rw [List.append_assoc]⟩
    · refine Or.inr ⟨scan', fun after same => ?_⟩
      rw [List.append_assoc] at same
      exact other after (List.append_cancel_left same)

end Counted

/-- Bytes whose length was read first. -/
theorem field_tells {count : Nat} {input middle bytes rest : Bytes}
    (first : readUInt 4 input = .ok (count, middle))
    (read : readFull count middle = .ok (bytes, rest)) :
    Layout.field.Tells input (bigEndian 4 bytes.length ++ bytes) rest := by
  obtain ⟨rfl, small⟩ := readUInt_split first
  obtain ⟨rfl, rfl⟩ := readFull_split read
  have length := length_bigEndian 4 bytes.length
  rw [← List.append_assoc]
  refine .exact ?_
  rw [Layout.scan, List.append_assoc, Layout.skip_append length, List.take_left' length,
    ofBigEndian_bigEndian, Nat.mod_eq_of_lt small]
  exact Layout.skip_append rfl rest

/-- A part whose frame was read first and that was read on its own. -/
theorem framed_tells {reader : Reader α} {layout : Layout} {encode : α → Bytes}
    (follows : Follows reader layout encode) {count : Nat}
    {input middle bytes rest left : Bytes} {value : α}
    (first : readUInt 4 input = .ok (count, middle))
    (read : readFull count middle = .ok (bytes, rest))
    (inner : reader bytes = .ok (value, left)) :
    (Layout.framed layout).Tells input (bigEndian 4 (encode value).length ++ encode value) rest := by
  obtain ⟨rfl, small⟩ := readUInt_split first
  obtain ⟨rfl, rfl⟩ := readFull_split read
  obtain ⟨_, rfl, tells⟩ := follows inner
  have bound := tells.length
  have length := length_bigEndian 4 bytes.length
  have scan : (Layout.framed layout).scan (bigEndian 4 bytes.length ++ (bytes ++ rest)) =
      (some rest).filter fun _ => layout.scan bytes = some [] := by
    rw [Layout.scan, Layout.skip_append length, List.take_left' length, ofBigEndian_bigEndian,
      Nat.mod_eq_of_lt small, Option.bind_some]
    dsimp only
    rw [Layout.skip_append rfl, List.take_left' rfl]
  constructor
  case length =>
    simp only [List.length_append, length_bigEndian]
    omega
  case tidy =>
    rw [scan]
    by_cases whole : layout.scan bytes = some []
    · left
      rcases tells.tidy with ⟨scan', split⟩ | ⟨scan', _⟩
      · rw [whole] at scan'
        obtain rfl := Option.some.inj scan'
        rw [List.append_nil] at split
        subst split
        exact ⟨by simp [whole], by rw [List.append_assoc]⟩
      · rw [whole] at scan'
        exact absurd scan' (by simp)
    · right
      refine ⟨by simp [whole], fun after same => ?_⟩
      rw [List.append_assoc] at same
      obtain ⟨lengths, rests⟩ := List.append_inj same (by simp)
      have equal : bytes.length = (encode value).length :=
        bigEndian_inj 4 small (by omega) lengths
      obtain ⟨rfl, -⟩ := List.append_inj rests equal
      rcases tells.tidy with ⟨scan', split⟩ | ⟨_, other⟩
      · have none : left = [] := by
          refine List.length_eq_zero_iff.mp ?_
          omega
        rw [none] at scan'
        exact whole scan'
      · exact other [] (List.append_nil _).symm

end Reader

end Wire
