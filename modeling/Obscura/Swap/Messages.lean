import Obscura.Lib.Checked
import Obscura.Lib.Codec
import Obscura.Lib.Magnitude

/-! # The handshake messages as bytes

The six messages of a swap between their fields and their bytes. A message starts with the
role of its author; points and scalars travel as 32 bytes, other strings behind an eight byte
length, and the XNO amount as a length-prefixed magnitude. Parsers and serializers are inverse
to each other on the messages whose fields have their widths, except that the amount of an
`Init` may carry leading zero bytes (`messages_exact`).
-/

namespace Obscura.Swap.Messages

open Wire Reader

/-- The tag of the maker's messages. -/
def roleMaker : UInt8 := 1

/-- The tag of the taker's messages. -/
def roleTaker : UInt8 := 2

/-- The error of every message that does not parse. -/
def errMsg : String := "swapsession: malformed or invalid message"

/-- The taker opens the session. An amount that is nil in the source is zero here. -/
structure Init where
  swapID : Bytes
  obxAmount : UInt64
  xnoAmount : Nat
  fee : UInt64
  A : Bytes
  Sa : Bytes
  popA : Bytes
  Ra : Bytes
  T : Bytes
deriving DecidableEq

/-- The maker's keys, with the proofs that it holds them. -/
structure MakerCommit where
  swapID : Bytes
  B : Bytes
  Sb : Bytes
  popB : Bytes
  Rb : Bytes
deriving DecidableEq

/-- The output that the maker has funded. -/
structure Funded where
  swapID : Bytes
  swapKey : Bytes
  unlockHeight : UInt64
deriving DecidableEq

/-- The lock id is a string of arbitrary bytes. -/
structure XNOLocked where
  swapID : Bytes
  lockID : Bytes
deriving DecidableEq

/-- The taker asks for a half of the claim's signature. -/
structure ClaimRequest where
  swapID : Bytes
  coreHash : Bytes
  takerHalf : Bytes
deriving DecidableEq

/-- The maker's half of the claim's signature. -/
structure ClaimPreSig where
  swapID : Bytes
  Sb : Bytes
deriving DecidableEq

/-! ## Serialization -/

/-- Copied into an array of 32 bytes. -/
def put32b (p : Bytes) : Bytes := (p ++ List.replicate 32 0).take 32

/-- `putLen`: the length of a field in front of it. -/
def putLen (p : Bytes) : Bytes := putBytes p

/-- An `Init` with `amount` in the place of the magnitude. -/
def Init.code (m : Init) (amount : Bytes) : Bytes :=
  [roleTaker] ++ m.swapID ++ putU64 m.obxAmount.toNat ++ putLen amount ++ putU64 m.fee.toNat ++
    put32b m.A ++ put32b m.Sa ++ putLen m.popA ++ put32b m.Ra ++ put32b m.T

/-- `Serialize`: the role, the fields, the amounts as magnitudes. -/
def Init.serialize (m : Init) : Bytes := m.code (magnitude m.xnoAmount)

/-- `Serialize` of the maker's keys. -/
def MakerCommit.serialize (m : MakerCommit) : Bytes :=
  [roleMaker] ++ m.swapID ++ put32b m.B ++ put32b m.Sb ++ putLen m.popB ++ put32b m.Rb

/-- `Serialize` of the funding. -/
def Funded.serialize (m : Funded) : Bytes :=
  [roleMaker] ++ m.swapID ++ putLen m.swapKey ++ putU64 m.unlockHeight.toNat

/-- `Serialize` of the lock. -/
def XNOLocked.serialize (m : XNOLocked) : Bytes :=
  [roleTaker] ++ m.swapID ++ putLen m.lockID

/-- `Serialize` of a request. -/
def ClaimRequest.serialize (m : ClaimRequest) : Bytes :=
  [roleTaker] ++ m.swapID ++ putLen m.coreHash ++ put32b m.takerHalf

/-- `Serialize` of a half. -/
def ClaimPreSig.serialize (m : ClaimPreSig) : Bytes :=
  [roleMaker] ++ m.swapID ++ put32b m.Sb

/-! ## Parsing -/

/-- So many bytes, or the error. -/
def take (n : Nat) : Reader Bytes := fun input =>
  if n ≤ input.length then .ok (input.take n, input.drop n) else .error errMsg

/-- A word, highest byte first. -/
def u64 : Reader UInt64 := do
  let v ← take 8
  pure (UInt64.ofNat (ofBigEndian v))

/-- A field of 32 bytes. -/
def bytes32 : Reader Bytes := take 32

/-- The identifier of a swap. -/
def swapID : Reader Bytes := take 32

/-- `lenBytes`: a length of at most 64 KiB and its bytes. -/
def lenBytes : Reader Bytes := do
  let n ← u64
  refuse (n.toNat > 1 <<< 16) errMsg
  take n.toNat

/-- At most sixteen bytes, as an amount of raw XNO has 128 bits. -/
def bigInt : Reader Nat := do
  let raw ← lenBytes
  refuse (raw.length > 16) errMsg
  pure (ofBigEndian raw)

/-- A message of a role: its fields and nothing after them. -/
def parse {α : Type} (role : UInt8) (fields : Reader α) : Bytes → Except String α
  | [] => .error errMsg
  | first :: rest =>
    if first ≠ role then .error errMsg
    else do
      let (m, left) ← fields rest
      if left ≠ [] then .error errMsg else pure m

/-- `ParseInit`. -/
def parseInit : Bytes → Except String Init :=
  parse roleTaker do
    let swapID ← swapID
    let obxAmount ← u64
    let xnoAmount ← bigInt
    let fee ← u64
    let A ← bytes32
    let Sa ← bytes32
    let popA ← lenBytes
    let Ra ← bytes32
    let T ← bytes32
    pure { swapID, obxAmount, xnoAmount, fee, A, Sa, popA, Ra, T }

/-- `ParseMakerCommit`. -/
def parseMakerCommit : Bytes → Except String MakerCommit :=
  parse roleMaker do
    let swapID ← swapID
    let B ← bytes32
    let Sb ← bytes32
    let popB ← lenBytes
    let Rb ← bytes32
    pure { swapID, B, Sb, popB, Rb }

/-- `ParseFunded`. -/
def parseFunded : Bytes → Except String Funded :=
  parse roleMaker do
    let swapID ← swapID
    let swapKey ← lenBytes
    let unlockHeight ← u64
    pure { swapID, swapKey, unlockHeight }

/-- `ParseXNOLocked`. -/
def parseXNOLocked : Bytes → Except String XNOLocked :=
  parse roleTaker do
    let swapID ← swapID
    let lockID ← lenBytes
    pure { swapID, lockID }

/-- `canonical` says which 32 bytes are a scalar below the group order. -/
def ClaimRequest.validate (canonical : Bytes → Bool) (m : ClaimRequest) : Except String Unit :=
  if m.coreHash.length = 0 then .error errMsg
  else if m.takerHalf.length ≠ 32 then .error errMsg
  else if !canonical m.takerHalf then .error errMsg
  else pure ()

/-- `ParseClaimRequest`: the half is a canonical scalar. -/
def parseClaimRequest (canonical : Bytes → Bool) (b : Bytes) : Except String ClaimRequest := do
  let m ← parse roleTaker (do
    let swapID ← swapID
    let coreHash ← lenBytes
    let takerHalf ← bytes32
    pure { swapID, coreHash, takerHalf }) b
  m.validate canonical
  pure m

/-- `ParseClaimPreSig`. -/
def parseClaimPreSig : Bytes → Except String ClaimPreSig :=
  parse roleMaker do
    let swapID ← swapID
    let Sb ← bytes32
    pure { swapID, Sb }

/-! ## Fields -/

theorem put32b_eq {p : Bytes} (width : p.length = 32) : put32b p = p := by
  rw [put32b, List.take_left' width]

/-- So many bytes are read exactly. -/
theorem take_accepts (n : Nat) :
    Accepts (take n) (fun v => v.length = n) (Coded id) := by
  refine Accepts.of_ok_iff fun input value rest => ?_
  unfold take
  split_ifs with enough
  · rw [Except.ok.injEq, Prod.mk.injEq]
    constructor
    · rintro ⟨rfl, rfl⟩
      exact ⟨List.length_take_of_le enough, (List.take_append_drop n input).symm⟩
    · rintro ⟨width, rfl⟩
      exact ⟨List.take_left' width, List.drop_left' width⟩
  · constructor
    · rintro ⟨⟩
    · rintro ⟨width, rfl⟩
      exact absurd (by rw [List.length_append, id, width]; exact Nat.le_add_right _ _) enough

theorem bytes32_accepts : Accepts bytes32 (fun v => v.length = 32) (Coded put32b) :=
  Accepts.of_ok_iff fun input value rest => by
    rw [bytes32, (take_accepts 32).ok_iff]
    refine and_congr_right fun width => ?_
    rw [put32b_eq width, id]

theorem swapID_accepts : Accepts swapID (fun v => v.length = 32) (Coded id) := take_accepts 32

/-- A word is read exactly. -/
theorem u64_accepts : Accepts u64 (fun _ => True) (Coded fun v => putU64 v.toNat) := by
  refine Accepts.of_ok_iff fun input value rest => ?_
  rw [u64, bind_ok, true_and]
  constructor
  · rintro ⟨v, middle, read, same⟩
    obtain ⟨width, rfl⟩ := (take_accepts 8).ok_iff.mp read
    obtain ⟨rfl, rfl⟩ := Prod.mk.inj (pure_ok.mp same)
    have small : ofBigEndian v < 2 ^ 64 := by
      have bound := ofBigEndian_lt v
      rwa [width] at bound
    rw [UInt64.toNat_ofNat_of_lt' small, putU64, bigEndian_ofBigEndian width, id]
  · rintro rfl
    refine ⟨putU64 value.toNat, rest, (take_accepts 8).ok_iff.mpr
      ⟨length_bigEndian 8 value.toNat, rfl⟩, pure_ok.mpr ?_⟩
    have small : value.toNat < 256 ^ 8 := value.toNat_lt
    rw [putU64, ofBigEndian_bigEndian, Nat.mod_eq_of_lt small, UInt64.ofNat_toNat]

/-- A field is read exactly. -/
theorem lenBytes_accepts : Accepts lenBytes (fun v => v.length ≤ 2 ^ 16) (Coded putLen) := by
  refine Accepts.of_ok_iff fun input value rest => ?_
  rw [lenBytes, bind_ok]
  constructor
  · rintro ⟨n, middle, read, rest'⟩
    obtain ⟨-, rfl⟩ := u64_accepts.ok_iff.mp read
    obtain ⟨_, _, tested, taken⟩ := bind_ok.mp rest'
    obtain ⟨small, same⟩ := refuse_ok.mp tested
    obtain rfl : _ = middle := same
    obtain ⟨width, rfl⟩ := (take_accepts _).ok_iff.mp taken
    refine ⟨by rw [width]; exact Nat.not_lt.mp small, ?_⟩
    rw [putLen, putBytes, width, List.append_assoc, id]
  · rintro ⟨small, rfl⟩
    have word : value.length < 2 ^ 64 := lt_of_le_of_lt small (by decide)
    have count : (UInt64.ofNat value.length).toNat = value.length :=
      UInt64.toNat_ofNat_of_lt' word
    refine ⟨UInt64.ofNat value.length, value ++ rest, u64_accepts.ok_iff.mpr ⟨trivial, ?_⟩, ?_⟩
    · rw [count, putLen, putBytes, List.append_assoc]
    · rw [refuse_run (by rw [count]; exact Nat.not_lt.mpr small), count]
      exact (take_accepts _).ok_iff.mpr ⟨rfl, rfl⟩

/-- The codes of an amount: every magnitude of at most sixteen bytes that denotes it. -/
def amountCode (n : Nat) (bytes : Bytes) : Prop :=
  ∃ raw : Bytes, raw.length ≤ 16 ∧ ofBigEndian raw = n ∧ bytes = putLen raw

theorem bigInt_accepts : Accepts bigInt (fun _ => True) amountCode := by
  intro input value rest
  rw [bigInt, bind_ok, true_and]
  constructor
  · rintro ⟨raw, middle, read, rest'⟩
    obtain ⟨-, rfl⟩ := lenBytes_accepts.ok_iff.mp read
    obtain ⟨_, _, tested, same⟩ := bind_ok.mp rest'
    obtain ⟨few, left⟩ := refuse_ok.mp tested
    obtain ⟨rfl, rfl⟩ := Prod.mk.inj (pure_ok.mp same)
    obtain rfl : rest = middle := left
    exact ⟨putLen raw, ⟨raw, Nat.not_lt.mp few, rfl, rfl⟩, rfl⟩
  · rintro ⟨_, ⟨raw, few, rfl, rfl⟩, rfl⟩
    refine ⟨raw, rest, lenBytes_accepts.ok_iff.mpr ⟨few.trans (by decide), rfl⟩, ?_⟩
    rw [refuse_run (Nat.not_lt.mpr few)]
    rfl

theorem parse_ok_iff {α : Type} {role : UInt8} {fields : Reader α} {valid : α → Prop}
    {code : α → Bytes → Prop} (accepts : Accepts fields valid code) {b : Bytes} {m : α} :
    parse role fields b = .ok m ↔ valid m ∧ ∃ bytes, code m bytes ∧ b = role :: bytes := by
  cases b with
  | nil =>
    constructor
    · rintro ⟨⟩
    · rintro ⟨-, _, -, same⟩
      cases same
  | cons first rest =>
    have read : parse role fields (first :: rest) = .ok m ↔
        first = role ∧ fields rest = .ok (m, []) := by
      change (if first ≠ role then Except.error errMsg else fields rest >>= fun out =>
        if out.2 ≠ [] then Except.error errMsg else pure out.1) = _ ↔ _
      split_ifs with other
      · constructor
        · rintro ⟨⟩
        · exact fun both => absurd both.1 other
      · rw [and_iff_right (not_not.mp other)]
        cases run : fields rest with
        | error text => constructor <;> rintro ⟨⟩
        | ok out =>
          obtain ⟨value, left⟩ := out
          change (if left ≠ [] then Except.error errMsg else pure value) = _ ↔ _
          split_ifs with more
          · constructor
            · rintro ⟨⟩
            · intro same
              exact absurd (Prod.mk.inj (Except.ok.inj same)).2 more
          · rw [not_not.mp more]
            change Except.ok value = _ ↔ _
            simp
    rw [read, accepts]
    constructor
    · rintro ⟨rfl, fits, bytes, coded, rfl⟩
      exact ⟨fits, bytes, coded, by rw [List.append_nil]⟩
    · rintro ⟨fits, bytes, coded, same⟩
      obtain ⟨rfl, rfl⟩ := List.cons.inj same
      exact ⟨rfl, fits, rest, coded, (List.append_nil _).symm⟩

/-! ## The six messages -/

/-- Fields of the widths that their encodings keep. -/
structure MakerCommit.Sized (m : MakerCommit) : Prop where
  swapID : m.swapID.length = 32
  B : m.B.length = 32
  Sb : m.Sb.length = 32
  popB : m.popB.length ≤ 2 ^ 16
  Rb : m.Rb.length = 32

/-- The widths that a funding message has in the source. -/
structure Funded.Sized (m : Funded) : Prop where
  swapID : m.swapID.length = 32
  swapKey : m.swapKey.length ≤ 2 ^ 16

/-- The widths that a lock message has in the source. -/
structure XNOLocked.Sized (m : XNOLocked) : Prop where
  swapID : m.swapID.length = 32
  lockID : m.lockID.length ≤ 2 ^ 16

/-- The widths that a request has in the source. -/
structure ClaimRequest.Sized (canonical : Bytes → Bool) (m : ClaimRequest) : Prop where
  swapID : m.swapID.length = 32
  coreHash : m.coreHash.length ≤ 2 ^ 16
  asked : m.coreHash ≠ []
  takerHalf : m.takerHalf.length = 32
  scalar : canonical m.takerHalf = true

/-- The widths that a half has in the source. -/
structure ClaimPreSig.Sized (m : ClaimPreSig) : Prop where
  swapID : m.swapID.length = 32
  Sb : m.Sb.length = 32

/-- The widths that an opening message has in the source. -/
structure Init.Sized (m : Init) : Prop where
  swapID : m.swapID.length = 32
  A : m.A.length = 32
  Sa : m.Sa.length = 32
  popA : m.popA.length ≤ 2 ^ 16
  Ra : m.Ra.length = 32
  T : m.T.length = 32

/-- What parses as the maker's keys. -/
theorem parseMakerCommit_iff {b : Bytes} {m : MakerCommit} :
    parseMakerCommit b = .ok m ↔ m.Sized ∧ b = m.serialize := by
  refine (parse_ok_iff ((swapID_accepts.fieldCoded MakerCommit.swapID fun swapID =>
    bytes32_accepts.fieldCoded MakerCommit.B fun B =>
    bytes32_accepts.fieldCoded MakerCommit.Sb fun Sb =>
    lenBytes_accepts.fieldCoded MakerCommit.popB fun popB =>
    bytes32_accepts.fieldCoded MakerCommit.Rb fun Rb =>
    Accepts.pure fun m => by cases m; simp [and_assoc]).start)).trans ?_
  constructor
  · rintro ⟨⟨swapID, B, Sb, popB, Rb, -⟩, bytes, rfl, rfl⟩
    exact ⟨⟨swapID, B, Sb, popB, Rb⟩, by simp [MakerCommit.serialize]⟩
  · rintro ⟨sized, rfl⟩
    exact ⟨⟨sized.swapID, sized.B, sized.Sb, sized.popB, sized.Rb, trivial⟩, _, rfl,
      by simp [MakerCommit.serialize]⟩

/-- What parses as a funding. -/
theorem parseFunded_iff {b : Bytes} {m : Funded} :
    parseFunded b = .ok m ↔ m.Sized ∧ b = m.serialize := by
  refine (parse_ok_iff ((swapID_accepts.fieldCoded Funded.swapID fun swapID =>
    lenBytes_accepts.fieldCoded Funded.swapKey fun swapKey =>
    u64_accepts.fieldCoded Funded.unlockHeight fun unlockHeight =>
    Accepts.pure fun m => by cases m; simp [and_assoc]).start)).trans ?_
  constructor
  · rintro ⟨⟨swapID, swapKey, -⟩, bytes, rfl, rfl⟩
    exact ⟨⟨swapID, swapKey⟩, by simp [Funded.serialize]⟩
  · rintro ⟨sized, rfl⟩
    exact ⟨⟨sized.swapID, sized.swapKey, trivial, trivial⟩, _, rfl, by simp [Funded.serialize]⟩

/-- What parses as a lock. -/
theorem parseXNOLocked_iff {b : Bytes} {m : XNOLocked} :
    parseXNOLocked b = .ok m ↔ m.Sized ∧ b = m.serialize := by
  refine (parse_ok_iff ((swapID_accepts.fieldCoded XNOLocked.swapID fun swapID =>
    lenBytes_accepts.fieldCoded XNOLocked.lockID fun lockID =>
    Accepts.pure fun m => by cases m; simp).start)).trans ?_
  constructor
  · rintro ⟨⟨swapID, lockID, -⟩, bytes, rfl, rfl⟩
    exact ⟨⟨swapID, lockID⟩, by simp [XNOLocked.serialize]⟩
  · rintro ⟨sized, rfl⟩
    exact ⟨⟨sized.swapID, sized.lockID, trivial⟩, _, rfl, by simp [XNOLocked.serialize]⟩

/-- What parses as a half. -/
theorem parseClaimPreSig_iff {b : Bytes} {m : ClaimPreSig} :
    parseClaimPreSig b = .ok m ↔ m.Sized ∧ b = m.serialize := by
  refine (parse_ok_iff ((swapID_accepts.fieldCoded ClaimPreSig.swapID fun swapID =>
    bytes32_accepts.fieldCoded ClaimPreSig.Sb fun Sb =>
    Accepts.pure fun m => by cases m; simp).start)).trans ?_
  constructor
  · rintro ⟨⟨swapID, Sb, -⟩, bytes, rfl, rfl⟩
    exact ⟨⟨swapID, Sb⟩, by simp [ClaimPreSig.serialize]⟩
  · rintro ⟨sized, rfl⟩
    exact ⟨⟨sized.swapID, sized.Sb, trivial⟩, _, rfl, by simp [ClaimPreSig.serialize]⟩

theorem ClaimRequest.validate_ok {canonical : Bytes → Bool} {m : ClaimRequest} :
    m.validate canonical = .ok () ↔
      m.coreHash ≠ [] ∧ m.takerHalf.length = 32 ∧ canonical m.takerHalf = true := by
  unfold ClaimRequest.validate
  split_ifs with empty width scalar <;> simp_all [pure, Except.pure]

/-- What parses as a request. -/
theorem parseClaimRequest_iff {canonical : Bytes → Bool} {b : Bytes} {m : ClaimRequest} :
    parseClaimRequest canonical b = .ok m ↔ m.Sized canonical ∧ b = m.serialize := by
  have fields {m : ClaimRequest} := @parse_ok_iff _ roleTaker _ _ _
    (swapID_accepts.fieldCoded ClaimRequest.swapID fun swapID =>
      lenBytes_accepts.fieldCoded ClaimRequest.coreHash fun coreHash =>
      bytes32_accepts.fieldCoded ClaimRequest.takerHalf fun takerHalf =>
      @Accepts.pure _ ⟨swapID, coreHash, takerHalf⟩ _ fun m => by
        cases m
        simp [and_assoc]).start b m
  constructor
  · intro read
    obtain ⟨got, parsed, read⟩ := Checked.bind_ok.mp read
    obtain ⟨_, checked, same⟩ := Checked.bind_ok.mp read
    obtain rfl : got = m := Except.ok.inj same
    obtain ⟨⟨swapID, coreHash, -, -⟩, bytes, rfl, rfl⟩ := fields.mp parsed
    obtain ⟨asked, takerHalf, scalar⟩ := ClaimRequest.validate_ok.mp checked
    exact ⟨⟨swapID, coreHash, asked, takerHalf, scalar⟩, by simp [ClaimRequest.serialize]⟩
  · rintro ⟨sized, rfl⟩
    refine Checked.bind_ok.mpr ⟨m, fields.mpr ⟨⟨sized.swapID, sized.coreHash, sized.takerHalf,
      trivial⟩, _, rfl, by simp [ClaimRequest.serialize]⟩, Checked.bind_ok.mpr ⟨(),
      ClaimRequest.validate_ok.mpr ⟨sized.asked, sized.takerHalf, sized.scalar⟩, rfl⟩⟩

/-- What parses as an opening message. -/
theorem parseInit_iff {b : Bytes} {m : Init} :
    parseInit b = .ok m ↔
      m.Sized ∧ ∃ raw, raw.length ≤ 16 ∧ ofBigEndian raw = m.xnoAmount ∧ b = m.code raw := by
  refine (parse_ok_iff (swapID_accepts.field Init.swapID fun swapID =>
    u64_accepts.field Init.obxAmount fun obxAmount =>
    bigInt_accepts.field Init.xnoAmount fun xnoAmount =>
    u64_accepts.fieldCoded Init.fee fun fee =>
    bytes32_accepts.fieldCoded Init.A fun A =>
    bytes32_accepts.fieldCoded Init.Sa fun Sa =>
    lenBytes_accepts.fieldCoded Init.popA fun popA =>
    bytes32_accepts.fieldCoded Init.Ra fun Ra =>
    bytes32_accepts.fieldCoded Init.T fun T =>
    Accepts.pure fun m => by cases m; simp [and_assoc]).start).trans ?_
  constructor
  · rintro ⟨⟨swapID, -, -, -, A, Sa, popA, Ra, T, -⟩, _,
      ⟨_, _, rfl, ⟨_, _, rfl, ⟨_, _, ⟨raw, short, value, rfl⟩, rfl, rfl⟩, rfl⟩, rfl⟩, rfl⟩
    exact ⟨⟨swapID, A, Sa, popA, Ra, T⟩, raw, short, value, by simp [Init.code]⟩
  · rintro ⟨sized, raw, short, value, rfl⟩
    exact ⟨⟨sized.swapID, trivial, trivial, trivial, sized.A, sized.Sa, sized.popA, sized.Ra,
      sized.T, trivial⟩, _, ⟨_, _, rfl, ⟨_, _, rfl, ⟨_, _, ⟨raw, short, value, rfl⟩, rfl, rfl⟩,
      rfl⟩, rfl⟩, by simp [Init.code]⟩

/-- The length of a magnitude. -/
theorem length_magnitude_le {n width : Nat} : (magnitude n).length ≤ width ↔ n < 256 ^ width := by
  constructor
  · intro short
    have small := ofBigEndian_lt (magnitude n)
    rw [ofBigEndian_magnitude] at small
    exact lt_of_lt_of_le small (Nat.pow_le_pow_right (by decide) short)
  · intro small
    unfold magnitude
    split_ifs with zero
    · exact Nat.zero_le _
    · rw [length_bigEndian]
      by_contra long
      have large := (magnitude_bounds zero).1
      have wide : width ≤ n.log2 / 8 := Nat.lt_succ_iff.mp (Nat.not_le.mp long)
      exact absurd ((Nat.pow_le_pow_right (by decide) wide).trans large) (Nat.not_le.mpr small)

/-- Every message with its exact bytes, and when an `Init` comes back from its own. -/
theorem messages_exact (canonical : Bytes → Bool) :
    (∀ b m, parseMakerCommit b = .ok m ↔ m.Sized ∧ b = m.serialize) ∧
    (∀ b m, parseFunded b = .ok m ↔ m.Sized ∧ b = m.serialize) ∧
    (∀ b m, parseXNOLocked b = .ok m ↔ m.Sized ∧ b = m.serialize) ∧
    (∀ b m, parseClaimRequest canonical b = .ok m ↔ m.Sized canonical ∧ b = m.serialize) ∧
    (∀ b m, parseClaimPreSig b = .ok m ↔ m.Sized ∧ b = m.serialize) ∧
    (∀ b m, parseInit b = .ok m ↔
      m.Sized ∧ ∃ raw, raw.length ≤ 16 ∧ ofBigEndian raw = m.xnoAmount ∧ b = m.code raw) ∧
    (∀ m : Init, parseInit m.serialize = .ok m ↔ m.Sized ∧ m.xnoAmount < 2 ^ 128) := by
  refine ⟨fun _ _ => parseMakerCommit_iff, fun _ _ => parseFunded_iff,
    fun _ _ => parseXNOLocked_iff, fun _ _ => parseClaimRequest_iff,
    fun _ _ => parseClaimPreSig_iff, fun _ _ => parseInit_iff, fun m => ?_⟩
  rw [parseInit_iff]
  refine and_congr_right fun sized => ?_
  have power : (2 : Nat) ^ 128 = 256 ^ 16 := by norm_num
  rw [power]
  constructor
  · rintro ⟨raw, short, value, -⟩
    rw [← value]
    exact lt_of_lt_of_le (ofBigEndian_lt raw) (Nat.pow_le_pow_right (by decide) short)
  · exact fun small => ⟨magnitude m.xnoAmount, length_magnitude_le.mpr small,
      ofBigEndian_magnitude _, rfl⟩

end Obscura.Swap.Messages
