import Obscura.Decode
import Obscura.Lib.Layout

/-! # Canonical encodings

The layouts of transactions and blocks. A decoded string is the serialization of the
value it decodes to exactly when it is tidy for its layout: the decoders ignore what
follows a header, a transaction or a retrievability entry inside its frame, and take
every byte but 1 for false.
-/

namespace Obscura.Tx

open Wire Reader Layout

/-! ## Fields -/

theorem rB_follows : Follows rB .field wB := by
  intro input field rest read
  obtain ⟨count, middle, first, read⟩ := bind_ok.mp read
  obtain ⟨_, _, read⟩ := refuse_silent.bind_ok read
  obtain ⟨_, _, read⟩ := remaining_silent.bind_ok read
  obtain ⟨_, _, read⟩ := refuse_silent.bind_ok read
  exact ⟨_, rfl, field_tells first read⟩

theorem rU64_follows : Follows rU64 (.fixed 8) wU64 := by
  refine Tracks.exact fun input word rest read => ?_
  obtain ⟨number, middle, first, read⟩ := bind_ok.mp read
  obtain ⟨rfl, rfl⟩ := Prod.mk.inj (pure_ok.mp read)
  obtain ⟨rfl, small⟩ := readUInt_split first
  have same : (UInt64.ofNat number).toNat = number := UInt64.toNat_ofNat_of_lt' small
  rw [wU64, same]
  exact ⟨rfl, skip_append (length_bigEndian 8 number) rest⟩

/-- A flag has the layout of one byte. -/
theorem rBool_follows : Follows rBool .flag wBool := by
  intro input flag rest read
  obtain ⟨byte, middle, first, read⟩ := bind_ok.mp read
  obtain ⟨rfl, rfl⟩ := Prod.mk.inj (pure_ok.mp read)
  cases input with
  | nil => exact nomatch first
  | cons head tail =>
    obtain ⟨rfl, same⟩ := Prod.mk.inj (Except.ok.inj first)
    subst same
    have scan : Layout.flag.scan (head :: tail) =
        (some tail).filter fun _ => head.toNat ≤ 1 := by
      rw [Layout.scan]
      exact congrArg _ (@skip_append [head] 1 rfl tail)
    refine ⟨_, rfl, by simp [wBool, Nat.add_comm], ?_⟩
    rw [scan]
    by_cases canonical : head.toNat ≤ 1
    · left
      refine ⟨by simp [canonical], ?_⟩
      have cases : head = 0 ∨ head = 1 := by
        rcases Nat.le_one_iff_eq_zero_or_eq_one.mp canonical with zero | one
        · exact Or.inl (UInt8.toNat_inj.mp zero)
        · exact Or.inr (UInt8.toNat_inj.mp one)
      rcases cases with rfl | rfl <;> rfl
    · right
      refine ⟨by simp [canonical], fun after same => ?_⟩
      have byte : head = if head == 1 then 1 else 0 := (List.cons.inj same).1
      refine canonical ?_
      rw [byte]
      split_ifs <;> decide

/-! ## Records -/

/-- Six strings. -/
def Input.layout : Layout := .record [.field, .field, .field, .field, .field, .field]

theorem Input.follows : Follows Input.read Input.layout Input.serialize :=
  rB_follows.bind fun outputRef => rB_follows.bind fun ownershipProof =>
    rB_follows.bind fun pseudoCommitment => rB_follows.bind fun equalityProof =>
    rB_follows.bind fun keyImage => rB_follows.bind fun keyImageProof =>
    .pure (by simp [Input.serialize])

/-- The pool in eight bytes, then three strings. -/
def AnonInput.layout : Layout := .record [.fixed 8, .field, .field, .field]

theorem AnonInput.follows : Follows AnonInput.read AnonInput.layout AnonInput.serialize :=
  rU64_follows.bind fun poolID => rB_follows.bind fun tag => rB_follows.bind fun pseudoCommitment =>
    rB_follows.bind fun proof => .pure (by simp [AnonInput.serialize])

/-- The refund flag between two strings. -/
def SwapIn.layout : Layout := .record [.field, .flag, .field]

theorem SwapIn.follows : Follows SwapIn.read SwapIn.layout SwapIn.serialize :=
  rB_follows.bind fun swapKey => rBool_follows.bind fun isRefund => rB_follows.bind fun sig =>
    .pure (by simp [SwapIn.serialize])

/-- The amount and the unlock height between strings. -/
def SwapOut.layout : Layout :=
  .record [.field, .fixed 8, .field, .field, .fixed 8, .field, .field, .field, .field, .field, .field]

theorem SwapOut.follows : Follows SwapOut.read SwapOut.layout SwapOut.serialize :=
  rB_follows.bind fun swapKey => rU64_follows.bind fun amount => rB_follows.bind fun claimKey =>
    rB_follows.bind fun refundKey => rU64_follows.bind fun unlockHeight =>
    rB_follows.bind fun claimA => rB_follows.bind fun claimB => rB_follows.bind fun popA =>
    rB_follows.bind fun popB => rB_follows.bind fun claimR => rB_follows.bind fun claimT =>
    .pure (by simp [SwapOut.serialize])

/-- Four strings, two words, two strings and the view tag. -/
def Output.layout : Layout :=
  .record [.field, .field, .field, .field, .fixed 8, .fixed 8, .field, .field, .fixed 1]

theorem Output.follows : Follows Output.read Output.layout Output.serialize :=
  rB_follows.bind fun oneTimeKey => rB_follows.bind fun txPubKey => rB_follows.bind fun commitment =>
    rB_follows.bind fun rangeProof => rU64_follows.bind fun primeNonce =>
    rU64_follows.bind fun lockUntil => rB_follows.bind fun encAmount => rB_follows.bind fun encMask =>
    readByte_follows.bind fun viewTag => .pure (by simp [Output.serialize])

/-- Seven strings. -/
def PQInput.layout : Layout := .record [.field, .field, .field, .field, .field, .field, .field]

theorem PQInput.follows : Follows PQInput.read PQInput.layout PQInput.serialize :=
  rB_follows.bind fun outputRef => rB_follows.bind fun p => rB_follows.bind fun wotsRoot =>
    rB_follows.bind fun nullifier => rB_follows.bind fun anchor => rB_follows.bind fun hybridSig =>
    rB_follows.bind fun membership => .pure (by simp [PQInput.serialize])

/-- The amount among strings. -/
def PQOutput.layout : Layout := .record [.field, .fixed 8, .field, .field, .field, .field, .field]

theorem PQOutput.follows : Follows PQOutput.read PQOutput.layout PQOutput.serialize :=
  rB_follows.bind fun oneTimeKey => rU64_follows.bind fun amount =>
    rB_follows.bind fun kemCiphertext => rB_follows.bind fun viewTag =>
    rB_follows.bind fun commitment => rB_follows.bind fun encAmount => rB_follows.bind fun mac =>
    .pure (by simp [PQOutput.serialize])

/-- The yield between two strings. -/
def VaultIn.layout : Layout := .record [.field, .fixed 8, .field]

theorem VaultIn.follows : Follows VaultIn.read VaultIn.layout VaultIn.serialize :=
  rB_follows.bind fun vaultKey => rU64_follows.bind fun yield => rB_follows.bind fun sig =>
    .pure (by simp [VaultIn.serialize])

/-- The amount and the term between two strings. -/
def VaultOut.layout : Layout := .record [.field, .fixed 8, .fixed 8, .field]

theorem VaultOut.follows : Follows VaultOut.read VaultOut.layout VaultOut.serialize :=
  rB_follows.bind fun vaultKey => rU64_follows.bind fun amount => rU64_follows.bind fun term =>
    rB_follows.bind fun ownerKey => .pure (by simp [VaultOut.serialize])

/-- The amount among strings. -/
def ZKInput.layout : Layout := .record [.field, .fixed 8, .field, .field]

theorem ZKInput.follows : Follows ZKInput.read ZKInput.layout ZKInput.serialize :=
  rB_follows.bind fun nullifier => rU64_follows.bind fun amount => rB_follows.bind fun anchor =>
    rB_follows.bind fun proof => .pure (by simp [ZKInput.serialize])

/-- The amount among strings, and the view tag. -/
def ZKOutput.layout : Layout := .record [.field, .fixed 8, .field, .field, .field, .fixed 1]

theorem ZKOutput.follows : Follows ZKOutput.read ZKOutput.layout ZKOutput.serialize :=
  rB_follows.bind fun leaf => rU64_follows.bind fun amount => rB_follows.bind fun mintProof =>
    rB_follows.bind fun key => rB_follows.bind fun txPubKey => readByte_follows.bind fun viewTag =>
    .pure (by simp [ZKOutput.serialize])

/-- The fee among strings, and the view tag. -/
def CZKSpend.layout : Layout :=
  .record [.field, .field, .field, .fixed 8, .field, .field, .field, .fixed 1, .field]

theorem CZKSpend.follows : Follows CZKSpend.read CZKSpend.layout CZKSpend.serialize :=
  rB_follows.bind fun nullifier => rB_follows.bind fun anchor => rB_follows.bind fun leafOut =>
    rU64_follows.bind fun fee => rB_follows.bind fun proof => rB_follows.bind fun key =>
    rB_follows.bind fun txPubKey => readByte_follows.bind fun viewTag =>
    rB_follows.bind fun encAmount => .pure (by simp [CZKSpend.serialize])

/-! ## Transactions -/

/-- A list has a counted layout. -/
theorem rList_follows {α : Type} {most : Nat} {message : String} {reader : Reader α}
    {layout : Layout} {encode : α → Bytes} (follows : Follows reader layout encode) :
    Follows (rList most message reader) (.counted 8 layout) (putList encode) := by
  intro input values rest read
  obtain ⟨word, middle, first, read⟩ := bind_ok.mp read
  obtain ⟨_, _, read⟩ := refuse_silent.bind_ok read
  obtain ⟨number, _, first, copied⟩ := bind_ok.mp first
  obtain ⟨rfl, rfl⟩ := Prod.mk.inj (pure_ok.mp copied)
  have same : (UInt64.ofNat number).toNat = number :=
    UInt64.toNat_ofNat_of_lt' (readUInt_split first).2
  rw [same] at read
  exact ⟨_, rfl, counted_tells follows first read⟩

/-- The sections of a transaction, each behind its count. -/
def Transaction.layout : Layout :=
  .record [.fixed 2, .flag, .counted 8 Input.layout, .counted 8 AnonInput.layout,
    .counted 8 SwapIn.layout, .counted 8 SwapOut.layout, .counted 8 Output.layout, .fixed 8,
    .field, .fixed 8, .fixed 8, .field, .fixed 8, .counted 8 PQInput.layout,
    .counted 8 PQOutput.layout, .field, .counted 8 VaultIn.layout, .counted 8 VaultOut.layout,
    .counted 8 ZKInput.layout, .counted 8 ZKOutput.layout, .counted 8 CZKSpend.layout]

theorem readVersion_follows : Follows (readUInt 2) (.fixed 2) fun version =>
    bigEndian 2 (UInt16.ofNat version).toNat := by
  refine Tracks.exact fun input version rest read => ?_
  obtain ⟨rfl, small⟩ := readUInt_split read
  rw [UInt16.toNat_ofNat_of_lt' small]
  exact ⟨rfl, skip_append (length_bigEndian 2 version) rest⟩

/-- **Transactions** have their layout. -/
theorem Transaction.follows :
    Follows Transaction.read Transaction.layout Transaction.serialize := by
  refine readVersion_follows.bind fun version => rBool_follows.bind fun isCoinbase =>
    (rList_follows Input.follows).bind fun inputs =>
    (rList_follows AnonInput.follows).bind fun anonInputs =>
    (rList_follows SwapIn.follows).bind fun swapInputs =>
    (rList_follows SwapOut.follows).bind fun swapOutputs =>
    (rList_follows Output.follows).bind fun outputs =>
    rU64_follows.bind fun fee => rB_follows.bind fun conservation =>
    rU64_follows.bind fun height => rU64_follows.bind fun minted =>
    rB_follows.bind fun referrerTag => rU64_follows.bind fun extraNonce =>
    (rList_follows PQInput.follows).bind fun pqInputs =>
    (rList_follows PQOutput.follows).bind fun pqOutputs =>
    rB_follows.bind fun pqBlindDiff =>
    (rList_follows VaultIn.follows).bind fun vaultInputs =>
    (rList_follows VaultOut.follows).bind fun vaultOutputs =>
    (rList_follows ZKInput.follows).bind fun zkInputs =>
    (rList_follows ZKOutput.follows).bind fun zkOutputs =>
    (rList_follows CZKSpend.follows).bind fun czkSpends => .pure ?_
  unfold Transaction.serialize
  simp only [List.append_assoc, List.append_nil]

/-- **Transactions are read back.** The decoder returns a transaction from its
serialization exactly when the lists, the fields and the whole are within its limits. -/
theorem transaction_round_trip (t : Transaction) :
    Transaction.deserialize t.serialize = .ok t ↔
      t.Limits ∧ t.serialize.length ≤ maxTxBytes := by
  constructor
  · intro decoded
    refine ⟨Transaction.deserialize_limits decoded, ?_⟩
    unfold Transaction.deserialize at decoded
    split_ifs at decoded with long
    exact not_lt.mp long
  · rintro ⟨limits, short⟩
    exact Transaction.deserialize_serialize limits short

end Obscura.Tx

namespace Obscura

open Wire Reader Layout Tx

/-! ## Blocks -/

theorem ri64_follows : Follows ri64 (.fixed 8) wi64 := by
  refine Tracks.exact fun input value rest read => ?_
  obtain ⟨number, middle, first, read⟩ := bind_ok.mp read
  obtain ⟨rfl, rfl⟩ := Prod.mk.inj (pure_ok.mp read)
  obtain ⟨rfl, small⟩ := readUInt_split first
  have same : ((if number < 2 ^ 63 then (number : Int) else number - 2 ^ 64) % 2 ^ 64).toNat =
      number := by
    split_ifs <;> omega
  rw [wi64, same]
  exact ⟨rfl, skip_append (length_bigEndian 8 number) rest⟩

section Framed

variable {α β : Type} {coded : β → Bytes → Prop} {layout : Layout}

theorem field_tracks {next : Bytes → Reader β} {bad : Nat → Nat → Prop}
    [∀ count left, Decidable (bad count left)] {message : String}
    (after : ∀ bytes, Tracks (next bytes) layout fun result code =>
      coded result (wB bytes ++ code)) :
    Tracks (readUInt 4 >>= fun count => remaining >>= fun left =>
      refuse (bad count left) message >>= fun _ => readFull count >>= next)
      (.seq .field layout) coded := by
  intro input result rest read
  obtain ⟨count, middle, first, read⟩ := bind_ok.mp read
  obtain ⟨_, _, read⟩ := remaining_silent.bind_ok read
  obtain ⟨_, _, read⟩ := refuse_silent.bind_ok read
  obtain ⟨bytes, middle', second, read⟩ := bind_ok.mp read
  obtain ⟨code, holds, tells⟩ := after bytes read
  exact ⟨_, holds, (field_tells first second).seq tells⟩

theorem counted_tracks {width : Nat} {item : Reader α} {itemLayout : Layout}
    {encode : α → Bytes} {next : List α → Reader β} {bad : Nat → Nat → Prop}
    [∀ count left, Decidable (bad count left)] {message : String}
    (follows : Follows item itemLayout encode)
    (after : ∀ values, Tracks (next values) layout fun result code =>
      coded result (bigEndian width values.length ++ values.flatMap encode ++ code)) :
    Tracks (readUInt width >>= fun count => remaining >>= fun left =>
      refuse (bad count left) message >>= fun _ => times item count >>= next)
      (.seq (.counted width itemLayout) layout) coded := by
  intro input result rest read
  obtain ⟨count, middle, first, read⟩ := bind_ok.mp read
  obtain ⟨_, _, read⟩ := remaining_silent.bind_ok read
  obtain ⟨_, _, read⟩ := refuse_silent.bind_ok read
  obtain ⟨values, middle', second, read⟩ := bind_ok.mp read
  obtain ⟨code, holds, tells⟩ := after values read
  exact ⟨_, holds, (counted_tells follows first second).seq tells⟩

end Framed

/-- The fields of a header. -/
def Header.layout : Layout :=
  .record [.fixed 2, .fixed 8, .fixed 32, .fixed 8, .fixed 8, .fixed 8, .fixed 32, .field,
    .fixed 8, .fixed 32, .fixed 32, .fixed 32, .fixed 4, .fixed 32, .fixed 32]

/-- **Headers** have their layout. -/
theorem Header.follows : Follows Header.read Header.layout Header.serialize := by
  refine (readUInt_follows 2).bind fun version => (readUInt_follows 8).bind fun height =>
    (readFull_follows 32).bind fun prevHash => ri64_follows.bind fun timestamp =>
    (readUInt_follows 8).bind fun difficulty => (readUInt_follows 8).bind fun nonce =>
    (readFull_follows 32).bind fun merkleRoot => field_tracks fun accValue =>
    (readUInt_follows 8).bind fun accSize => (readFull_follows 32).bind fun pqAccRoot =>
    (readFull_follows 32).bind fun nullRoot => (readFull_follows 32).bind fun cmRoot =>
    (readUInt_follows 4).bind fun numTxs => (readFull_follows 32).bind fun porRoot =>
    (readFull_follows 32).bind fun stateRoot => .pure ?_
  simp only [Header.serialize, Header.roots, putU64, id_eq, List.append_assoc, List.append_nil]

/-- A hash and a side. -/
def MerkleStep.layout : Layout := .record [.fixed 32, .flag]

theorem MerkleStep.follows :
    Follows MerkleStep.read MerkleStep.layout fun step => step.hash ++ wBool step.right :=
  (readFull_follows 32).bind fun hash => rBool_follows.bind fun right => .pure (by simp)

/-- The height, the transaction and the counted branch. -/
def PoREntry.layout : Layout := .record [.fixed 8, .field, .counted 4 MerkleStep.layout]

theorem PoREntry.follows : Follows PoREntry.read PoREntry.layout PoREntry.serialize := by
  refine (readUInt_follows 8).bind fun height => field_tracks fun txBytes =>
    counted_tracks MerkleStep.follows fun steps => .pure ?_
  simp only [PoREntry.serialize, putU64, List.append_assoc, List.append_nil]

theorem readPart_follows {α : Type} {most : Option Nat} {message : String}
    {parse : Bytes → Except String α} {reader : Reader α} {layout : Layout} {encode : α → Bytes}
    (follows : Follows reader layout encode)
    (parses : ∀ {data value}, parse data = .ok value → ∃ rest, reader data = .ok (value, rest)) :
    Follows (readPart most message parse) (.framed layout) fun value => wB (encode value) := by
  intro input value rest read
  obtain ⟨count, middle, first, read⟩ := bind_ok.mp read
  obtain ⟨_, _, read⟩ := remaining_silent.bind_ok read
  obtain ⟨_, _, read⟩ := refuse_silent.bind_ok read
  obtain ⟨data, after, second, read⟩ := bind_ok.mp read
  obtain ⟨parsed, rfl⟩ := ofOutcome_ok.mp read
  obtain ⟨left, inner⟩ := parses parsed
  exact ⟨_, rfl, framed_tells follows first second inner⟩

theorem map_fst_ok {α : Type} {outcome : Except String (α × Bytes)} {value : α}
    (decoded : outcome.map Prod.fst = .ok value) : ∃ rest, outcome = .ok (value, rest) := by
  cases outcome with
  | error message => exact nomatch decoded
  | ok out =>
    obtain rfl := Except.ok.inj decoded
    exact ⟨out.2, rfl⟩

theorem readParts_follows {α : Type} {message : String} {part : Reader α} {layout : Layout}
    {encode : α → Bytes} (follows : Follows part layout encode) :
    Follows (readParts message part) (.counted 8 layout) (putList encode) := by
  intro input values rest read
  obtain ⟨count, middle, first, read⟩ := bind_ok.mp read
  obtain ⟨_, _, read⟩ := remaining_silent.bind_ok read
  obtain ⟨_, _, read⟩ := refuse_silent.bind_ok read
  exact ⟨_, rfl, counted_tells follows first read⟩

/-- The header, the transactions and the answers, each in a frame. -/
def Block.layout : Layout :=
  .record [.framed Header.layout, .counted 8 (.framed Transaction.layout),
    .counted 8 (.framed PoREntry.layout)]

/-- **Blocks** have their layout. -/
theorem Block.follows : Follows Block.read Block.layout Block.serialize := by
  have header : Follows (readPart none "block: header length exceeds input" parseHeader)
      (.framed Header.layout) fun h => wB h.serialize :=
    readPart_follows Header.follows fun parsed => map_fst_ok parsed
  have tx : Follows (readPart (some maxTxBytes) "block: tx length exceeds input"
      Transaction.deserialize) (.framed Transaction.layout) fun t => wB t.serialize := by
    refine readPart_follows Transaction.follows fun parsed => ?_
    unfold Transaction.deserialize at parsed
    split_ifs at parsed
    exact map_fst_ok parsed
  have entry : Follows (readPart none "block: PoR entry length exceeds input" parsePoREntry)
      (.framed PoREntry.layout) fun entry => wB entry.serialize :=
    readPart_follows PoREntry.follows fun parsed => map_fst_ok parsed
  refine header.bind fun header => (readParts_follows tx).bind fun txs =>
    (readParts_follows entry).bind fun por => .silent remaining_silent fun left =>
    .silent refuse_silent fun _ => .pure ?_
  simp only [Block.serialize, List.append_assoc, List.append_nil]

theorem Block.read_whole {data rest : Bytes} {b : Block} (read : Block.read data = .ok (b, rest)) :
    rest = [] := by
  obtain ⟨header, _, _, read⟩ := bind_ok.mp read
  obtain ⟨txs, _, _, read⟩ := bind_ok.mp read
  obtain ⟨por, _, _, read⟩ := bind_ok.mp read
  obtain ⟨left, counted, read⟩ := remaining_silent.bind_ok read
  obtain ⟨_, fine, read⟩ := refuse_silent.bind_ok read
  obtain ⟨-, rfl⟩ := Prod.mk.inj (pure_ok.mp read)
  obtain ⟨rfl, -⟩ := Prod.mk.inj (Except.ok.inj counted)
  exact List.length_eq_zero_iff.mp (not_not.mp (refuse_ok.mp fine).1)

/-- **Canonical block encodings.** A byte string that decodes to a block is the
serialization of the block exactly when it is tidy: the header, each transaction and each
retrievability entry fills its frame, and each flag is 0 or 1. -/
theorem decoded_block_canonical_iff {data : Bytes} {b : Block}
    (decoded : deserializeBlock data = .ok b) :
    b.serialize = data ↔ Block.layout.scan data = some [] := by
  unfold deserializeBlock at decoded
  split_ifs at decoded with long
  obtain ⟨rest, read⟩ := map_fst_ok decoded
  have whole : rest = [] := Block.read_whole read
  subst whole
  obtain ⟨_, rfl, tells⟩ := Block.follows read
  rcases tells.tidy with ⟨scan, split⟩ | ⟨scan, other⟩
  · rw [List.append_nil] at split
    exact ⟨fun _ => scan, fun _ => split.symm⟩
  · constructor
    · intro same
      exact absurd (by rw [same, List.append_nil]) (other [])
    · intro tidy
      rw [tidy] at scan
      exact nomatch scan

/-- A block without transactions. -/
def bareBlock : Block where
  header :=
    { height := 1, prevHash := zeroHash, timestamp := 0, difficulty := 1, accValue := [1],
      stateRoot := zeroHash }
  txs := []

/-- The same block with one more byte in the frame of its header. -/
def paddedBlock : Bytes :=
  wB (bareBlock.header.serialize ++ [0]) ++ putU64 0 ++ putU64 0

theorem padded_block_decodes :
    deserializeBlock paddedBlock = .ok bareBlock ∧
      deserializeBlock bareBlock.serialize = .ok bareBlock ∧ bareBlock.serialize ≠ paddedBlock := by
  refine ⟨?_, ?_, ?_⟩
  · decide +kernel
  · decide +kernel
  · decide +kernel

/-- A block that pays one output, spends a coin and answers one challenge. -/
def spentBlock : Block where
  header := bareBlock.header
  txs :=
    [{ isCoinbase := true, minted := 5,
       outputs := [⟨[1], [2], [3], [], 0, 0, [4], [], 9⟩] },
      { inputs := [{ outputRef := [1], ownershipProof := [2], pseudoCommitment := [3],
                     keyImage := [4] }]
        fee := 7 }]
  por := [⟨3, [1, 2], [⟨zeroHash, true⟩]⟩]

theorem spentBlock_canonical :
    deserializeBlock spentBlock.serialize = .ok spentBlock ∧
      Block.layout.scan spentBlock.serialize = some [] := by
  have decoded : deserializeBlock spentBlock.serialize = .ok spentBlock := by decide +kernel
  exact ⟨decoded, (decoded_block_canonical_iff decoded).mp rfl⟩

end Obscura
