import Obscura.Lib.Layout

/-! # Encodings of proofs

The parsers of package `commit` for the proofs of a transaction: the Schnorr proofs of
ownership, of equal values and of conservation, the proof of a key image and the anonymous
spend. They keep the encoded points and scalars as they are. Those that read their fields one
after the other stop behind the last one and ignore what follows.
-/

namespace Obscura.Commit

open Wire Reader Layout

/-- A Schnorr proof as `ParseSchnorrProof` returns it. -/
structure SchnorrProof where
  R : Bytes
  S : Bytes
deriving DecidableEq

/-- The challenge and the response of a proof of equal discrete logarithms. -/
structure DLEQProof where
  C : Nat
  S : Nat
deriving DecidableEq

/-- A joint anonymous-spend proof as `ParseAnonSpendProof` returns it. -/
structure ParsedAnonSpendProof where
  M : Nat
  Cl : List Bytes
  Ca : List Bytes
  Cb : List Bytes
  CdO : List Bytes
  Cdt : List Bytes
  CdV : List Bytes
  F : List Bytes
  Za : List Bytes
  Zb : List Bytes
  ZdO : Bytes
  ZdV : Bytes
deriving DecidableEq

/-! ## The encodings -/

/-- A string behind its length. -/
def wBytes (b : Bytes) : Bytes := bigEndian 4 b.length ++ b

/-- The two strings of a Schnorr proof. -/
def SchnorrProof.serialize (p : SchnorrProof) : Bytes := wBytes p.R ++ wBytes p.S

/-! ## The parsers -/

/-- A string of at most `2 ^ 16` bytes. -/
def rBytes : Reader Bytes := do
  let n ← readUInt 4
  let left ← remaining
  refuse (2 ^ 16 < n ∨ left < n) "commit: field too large"
  readFull n

/-- Reads the two strings. -/
def readSchnorrProof : Reader SchnorrProof := do
  let R ← rBytes
  let S ← rBytes
  pure ⟨R, S⟩

/-- `ParseSchnorrProof` ignores what follows. -/
def parseSchnorrProof (data : Bytes) : Except String SchnorrProof :=
  (readSchnorrProof data).map Prod.fst

/-- The order of the base point. -/
def scalarOrder : Nat := 2 ^ 252 + 27742317777372353535851937790883648493

/-- A scalar in its canonical encoding, the lowest byte first. -/
def canonicalScalar (bytes : Bytes) : Except String Nat :=
  let value := ofBigEndian bytes.reverse
  if bytes.length = 32 ∧ value < scalarOrder then .ok value
  else .error "invalid scalar encoding"

/-- Two canonical scalars in 64 bytes. -/
def parseDLEQ (b : Bytes) : Except String DLEQProof := do
  if b.length ≠ 64 then throw "dleq: proof must be 64 bytes"
  let c ← canonicalScalar (b.take 32)
  let s ← canonicalScalar (b.drop 32)
  pure ⟨c, s⟩

/-- The reader `rd` of `ParseAnonSpendProof`. -/
def rd : Reader Bytes := do
  let left ← remaining
  refuse (left < 4) "commit: truncated proof"
  let n ← readUInt 4
  let left ← remaining
  refuse (left < n ∨ 2 ^ 16 < n) "commit: bad proof field"
  readFull n

/-- A counted group of encoded points or scalars. -/
def rdGroup : Reader (List Bytes) := do
  let left ← remaining
  refuse (left < 4) "commit: truncated group"
  let n ← readUInt 4
  refuse (64 < n) "commit: bad group count"
  times rd n

/-- The groups of an anonymous spend, one after the other. -/
def readAnonSpendProof : Reader ParsedAnonSpendProof := do
  let left ← remaining
  refuse (left < 4) "commit: short proof"
  let M ← readUInt 4
  let Cl ← rdGroup
  let Ca ← rdGroup
  let Cb ← rdGroup
  let CdO ← rdGroup
  let Cdt ← rdGroup
  let CdV ← rdGroup
  let F ← rdGroup
  let Za ← rdGroup
  let Zb ← rdGroup
  let ZdO ← rd
  let ZdV ← rd
  pure ⟨M, Cl, Ca, Cb, CdO, Cdt, CdV, F, Za, Zb, ZdO, ZdV⟩

/-- `ParseAnonSpendProof`. -/
def parseAnonSpendProof (data : Bytes) : Except String ParsedAnonSpendProof :=
  (readAnonSpendProof data).map Prod.fst

/-! ## What follows the last field -/

/-- A reader that leaves what it does not read as it is. -/
def Stops {α : Type} (reader : Reader α) : Prop :=
  ∀ input more value rest, reader input = .ok (value, rest) →
    reader (input ++ more) = .ok (value, rest ++ more)

namespace Stops

variable {α β : Type}

theorem bind {reader : Reader α} {next : α → Reader β} (first : Stops reader)
    (second : ∀ value, Stops (next value)) : Stops (reader >>= next) := by
  intro input more result rest read
  obtain ⟨value, middle, begins, ends⟩ := bind_ok.mp read
  exact bind_ok.mpr ⟨value, middle ++ more, first _ _ _ _ begins, second _ _ _ _ _ ends⟩

theorem pure (value : α) : Stops (Pure.pure value) := by
  intro input more result rest read
  obtain ⟨rfl, rfl⟩ := Prod.mk.inj (pure_ok.mp read)
  rfl

theorem readFull (count : Nat) : Stops (Reader.readFull count) := by
  intro input more bytes rest read
  obtain ⟨rfl, length⟩ := readFull_split read
  rw [List.append_assoc]
  exact readFull_append length (rest ++ more)

theorem readUInt (width : Nat) : Stops (Reader.readUInt width) :=
  (readFull width).bind fun _ => pure _

theorem bounded {next : Reader α} {bad : Nat → Prop} [∀ left, Decidable (bad left)]
    {message : String} (mono : ∀ left more, ¬ bad left → ¬ bad (left + more))
    (stops : Stops next) :
    Stops (Reader.remaining >>= fun left =>
      Reader.refuse (bad left) message >>= fun _ => next) := by
  intro input more value rest read
  rw [remaining_run] at read
  obtain ⟨_, _, fine, ends⟩ := bind_ok.mp read
  obtain ⟨fine, rfl⟩ := refuse_ok.mp fine
  rw [remaining_run, refuse_run (by rw [List.length_append]; exact mono _ _ fine)]
  exact stops _ _ _ _ ends

theorem parse {reader : Reader α} (stops : Stops reader) {data : Bytes} {value : α}
    (read : (reader data).map Prod.fst = .ok value) (more : Bytes) :
    (reader (data ++ more)).map Prod.fst = .ok value := by
  cases run : reader data with
  | error message => simp [run, Except.map] at read
  | ok out =>
    rw [run] at read
    obtain rfl := Except.ok.inj read
    rw [stops data more out.1 out.2 run]
    rfl

end Stops

theorem rBytes_stops : Stops rBytes :=
  (Stops.readUInt 4).bind fun n => Stops.bounded (fun left more fine => by omega) (.readFull n)

theorem parseSchnorrProof_append {data : Bytes} {proof : SchnorrProof}
    (parsed : parseSchnorrProof data = .ok proof) (more : Bytes) :
    parseSchnorrProof (data ++ more) = .ok proof :=
  Stops.parse (rBytes_stops.bind fun _ => rBytes_stops.bind fun _ => .pure _) parsed more

theorem rBytes_split {input field rest : Bytes} (read : rBytes input = .ok (field, rest)) :
    input = wBytes field ++ rest ∧ field.length ≤ 2 ^ 16 := by
  obtain ⟨n, middle, first, second⟩ := bind_ok.mp read
  rw [remaining_run] at second
  obtain ⟨_, tail, third, last⟩ := bind_ok.mp second
  obtain ⟨fine, same⟩ := refuse_ok.mp third
  obtain rfl : tail = middle := same
  obtain ⟨rfl, -⟩ := readUInt_split first
  obtain ⟨rfl, rfl⟩ := readFull_split last
  rw [not_or, not_lt] at fine
  exact ⟨(List.append_assoc ..).symm, fine.1⟩

theorem rBytes_wBytes {field : Bytes} (small : field.length ≤ 2 ^ 16) (rest : Bytes) :
    rBytes (wBytes field ++ rest) = .ok (field, rest) := by
  have width : field.length < 256 ^ 4 := small.trans_lt (by decide)
  rw [rBytes, wBytes, List.append_assoc, (readUInt_reads 4).run width, remaining_run,
    refuse_run (by rw [List.length_append]; omega)]
  exact readFull_append rfl rest

theorem parseSchnorrProof_split {data : Bytes} {proof : SchnorrProof}
    (parsed : parseSchnorrProof data = .ok proof) :
    parseSchnorrProof proof.serialize = .ok proof ∧ ∃ rest, data = proof.serialize ++ rest := by
  cases run : readSchnorrProof data with
  | error message => simp [parseSchnorrProof, run, Except.map] at parsed
  | ok out =>
    rw [parseSchnorrProof, run] at parsed
    obtain rfl := Except.ok.inj parsed
    obtain ⟨R, middle, first, run⟩ := bind_ok.mp run
    obtain ⟨S, rest, second, run⟩ := bind_ok.mp run
    obtain rfl := pure_ok.mp run
    obtain ⟨rfl, smallR⟩ := rBytes_split first
    obtain ⟨rfl, smallS⟩ := rBytes_split second
    refine ⟨?_, rest, (List.append_assoc ..).symm⟩
    have whole := rBytes_wBytes smallS []
    rw [List.append_nil] at whole
    rw [parseSchnorrProof, readSchnorrProof, SchnorrProof.serialize,
      bind_run (rBytes_wBytes smallR _), bind_run whole]
    rfl

end Obscura.Commit
