import Mathlib.Data.List.Forall2
import Obscura.Block
import Obscura.Lib.Reader

/-! # Decoding transactions and blocks

The decoders of packages `tx` and `block` with their size limits, and the two facts
about each of them: it reads back the serialization of a record within its limits, and
it returns only records within its limits.
-/

namespace Obscura.Tx

open Wire Reader

/-- The most bytes of a length-prefixed field. -/
def maxFieldBytes : Nat := 2 ^ 16

/-- The most bytes of a serialized transaction. -/
def maxTxBytes : Nat := 2 ^ 21

/-- A length-prefixed field. -/
def rB : Reader Bytes := do
  let n ← readUInt 4
  refuse (maxFieldBytes < n) "tx: field too large"
  let left ← remaining
  refuse (left < n) "tx: field length exceeds remaining input"
  readFull n

/-- A word in eight bytes. -/
def rU64 : Reader UInt64 := do
  let n ← readUInt 8
  pure (UInt64.ofNat n)

/-- A flag; every byte but 1 is false. -/
def rBool : Reader Bool := do
  let byte ← readByte
  pure (byte == 1)

/-- A counted list of at most `most` records. -/
def rList {α : Type} (most : Nat) (message : String) (reader : Reader α) : Reader (List α) := do
  let n ← rU64
  refuse (most < n.toNat) message
  times reader n.toNat

/-- The six fields of a transparent input. -/
def Input.read : Reader Input := do
  let outputRef ← rB
  let ownershipProof ← rB
  let pseudoCommitment ← rB
  let equalityProof ← rB
  let keyImage ← rB
  let keyImageProof ← rB
  pure { outputRef, ownershipProof, pseudoCommitment, equalityProof, keyImage, keyImageProof }

/-- The fields of an anonymous input. -/
def AnonInput.read : Reader AnonInput := do
  let poolID ← rU64
  let tag ← rB
  let pseudoCommitment ← rB
  let proof ← rB
  pure { poolID, tag, pseudoCommitment, proof }

/-- The fields of a claim or refund. -/
def SwapIn.read : Reader SwapIn := do
  let swapKey ← rB
  let isRefund ← rBool
  let sig ← rB
  pure { swapKey, isRefund, sig }

/-- The fields of a new contract. -/
def SwapOut.read : Reader SwapOut := do
  let swapKey ← rB
  let amount ← rU64
  let claimKey ← rB
  let refundKey ← rB
  let unlockHeight ← rU64
  let claimA ← rB
  let claimB ← rB
  let popA ← rB
  let popB ← rB
  let claimR ← rB
  let claimT ← rB
  pure { swapKey, amount, claimKey, refundKey, unlockHeight, claimA, claimB, popA, popB, claimR,
         claimT }

/-- The fields of an output. -/
def Output.read : Reader Output := do
  let oneTimeKey ← rB
  let txPubKey ← rB
  let commitment ← rB
  let rangeProof ← rB
  let primeNonce ← rU64
  let lockUntil ← rU64
  let encAmount ← rB
  let encMask ← rB
  let viewTag ← readByte
  pure { oneTimeKey, txPubKey, commitment, rangeProof, primeNonce, lockUntil, encAmount, encMask,
         viewTag }

/-- The fields of a post-quantum input. -/
def PQInput.read : Reader PQInput := do
  let outputRef ← rB
  let p ← rB
  let wotsRoot ← rB
  let nullifier ← rB
  let anchor ← rB
  let hybridSig ← rB
  let membership ← rB
  pure { outputRef, p, wotsRoot, nullifier, anchor, hybridSig, membership }

/-- The fields of a post-quantum output. -/
def PQOutput.read : Reader PQOutput := do
  let oneTimeKey ← rB
  let amount ← rU64
  let kemCiphertext ← rB
  let viewTag ← rB
  let commitment ← rB
  let encAmount ← rB
  let mac ← rB
  pure { oneTimeKey, amount, kemCiphertext, viewTag, commitment, encAmount, mac }

/-- The fields of a vault withdrawal. -/
def VaultIn.read : Reader VaultIn := do
  let vaultKey ← rB
  let yield ← rU64
  let sig ← rB
  pure { vaultKey, yield, sig }

/-- The fields of a vault deposit. -/
def VaultOut.read : Reader VaultOut := do
  let vaultKey ← rB
  let amount ← rU64
  let term ← rU64
  let ownerKey ← rB
  pure { vaultKey, amount, term, ownerKey }

/-- The fields of a note spend. -/
def ZKInput.read : Reader ZKInput := do
  let nullifier ← rB
  let amount ← rU64
  let anchor ← rB
  let proof ← rB
  pure { nullifier, amount, anchor, proof }

/-- The fields of a mint. -/
def ZKOutput.read : Reader ZKOutput := do
  let leaf ← rB
  let amount ← rU64
  let mintProof ← rB
  let key ← rB
  let txPubKey ← rB
  let viewTag ← readByte
  pure { leaf, amount, mintProof, key, txPubKey, viewTag }

/-- The fields of a confidential spend. -/
def CZKSpend.read : Reader CZKSpend := do
  let nullifier ← rB
  let anchor ← rB
  let leafOut ← rB
  let fee ← rU64
  let proof ← rB
  let key ← rB
  let txPubKey ← rB
  let viewTag ← readByte
  let encAmount ← rB
  pure { nullifier, anchor, leafOut, fee, proof, key, txPubKey, viewTag, encAmount }

namespace Transaction

/-- The sections of a transaction; a count over its limit is refused. -/
def read : Reader Transaction := do
  let version ← readUInt 2
  let isCoinbase ← rBool
  let inputs ← rList Config.maxInputs "tx: too many inputs" Input.read
  let anonInputs ← rList Config.maxInputs "tx: too many anon inputs" AnonInput.read
  let swapInputs ← rList Config.maxInputs "tx: too many swap inputs" SwapIn.read
  let swapOutputs ← rList Config.maxOutputs "tx: too many swap outputs" SwapOut.read
  let outputs ← rList Config.maxOutputs "tx: too many outputs" Output.read
  let fee ← rU64
  let conservation ← rB
  let height ← rU64
  let minted ← rU64
  let referrerTag ← rB
  let extraNonce ← rU64
  let pqInputs ← rList Config.maxInputs "tx: too many pq inputs" PQInput.read
  let pqOutputs ← rList Config.maxOutputs "tx: too many pq outputs" PQOutput.read
  let pqBlindDiff ← rB
  let vaultInputs ← rList Config.maxInputs "tx: too many vault inputs" VaultIn.read
  let vaultOutputs ← rList Config.maxOutputs "tx: too many vault outputs" VaultOut.read
  let zkInputs ← rList Config.maxInputs "tx: too many zk inputs" ZKInput.read
  let zkOutputs ← rList Config.maxOutputs "tx: too many zk outputs" ZKOutput.read
  let czkSpends ← rList Config.maxInputs "tx: too many confidential zk spends" CZKSpend.read
  pure { version := UInt16.ofNat version, isCoinbase, inputs, anonInputs, swapInputs, swapOutputs,
         outputs, fee, conservation, height, minted, referrerTag, extraNonce, pqInputs, pqOutputs,
         pqBlindDiff, vaultInputs, vaultOutputs, zkInputs, zkOutputs, czkSpends }

/-- Decode a transaction; bytes after it are ignored. -/
def deserialize (data : Bytes) : Except String Transaction :=
  if maxTxBytes < data.length then
    .error "tx: serialized transaction too large"
  else
    (read data).map Prod.fst

end Transaction

/-! ## Limits -/

/-- A field the decoder takes. -/
def Bounded (field : Bytes) : Prop := field.length ≤ maxFieldBytes

/-- The length-prefixed fields of a record. -/
def Input.fields (i : Input) : List Bytes :=
  [i.outputRef, i.ownershipProof, i.pseudoCommitment, i.equalityProof, i.keyImage, i.keyImageProof]

/-- The strings of an anonymous input. -/
def AnonInput.fields (i : AnonInput) : List Bytes := [i.tag, i.pseudoCommitment, i.proof]

/-- The strings of a claim or refund. -/
def SwapIn.fields (i : SwapIn) : List Bytes := [i.swapKey, i.sig]

/-- The strings of a new contract. -/
def SwapOut.fields (o : SwapOut) : List Bytes :=
  [o.swapKey, o.claimKey, o.refundKey, o.claimA, o.claimB, o.popA, o.popB, o.claimR, o.claimT]

/-- The strings of an output. -/
def Output.fields (o : Output) : List Bytes :=
  [o.oneTimeKey, o.txPubKey, o.commitment, o.rangeProof, o.encAmount, o.encMask]

/-- The strings of a post-quantum input. -/
def PQInput.fields (i : PQInput) : List Bytes :=
  [i.outputRef, i.p, i.wotsRoot, i.nullifier, i.anchor, i.hybridSig, i.membership]

/-- The strings of a post-quantum output. -/
def PQOutput.fields (o : PQOutput) : List Bytes :=
  [o.oneTimeKey, o.kemCiphertext, o.viewTag, o.commitment, o.encAmount, o.mac]

/-- The strings of a vault withdrawal. -/
def VaultIn.fields (i : VaultIn) : List Bytes := [i.vaultKey, i.sig]

/-- The strings of a vault deposit. -/
def VaultOut.fields (o : VaultOut) : List Bytes := [o.vaultKey, o.ownerKey]

/-- The strings of a note spend. -/
def ZKInput.fields (i : ZKInput) : List Bytes := [i.nullifier, i.anchor, i.proof]

/-- The strings of a mint. -/
def ZKOutput.fields (o : ZKOutput) : List Bytes := [o.leaf, o.mintProof, o.key, o.txPubKey]

/-- The strings of a confidential spend. -/
def CZKSpend.fields (s : CZKSpend) : List Bytes :=
  [s.nullifier, s.anchor, s.leafOut, s.proof, s.key, s.txPubKey, s.encAmount]

/-- The fields of a record are ones the decoder takes. -/
def Fits {α : Type} (fields : α → List Bytes) (value : α) : Prop :=
  ∀ field ∈ fields value, Bounded field

/-- A list of records the decoder takes. -/
def Listed {α : Type} (most : Nat) (fields : α → List Bytes) (values : List α) : Prop :=
  values.length ≤ most ∧ ∀ value ∈ values, Fits fields value

/-- What the decoder asks of the parts of a transaction. -/
structure Transaction.Limits (t : Transaction) : Prop where
  inputs : Listed Config.maxInputs Input.fields t.inputs
  anonInputs : Listed Config.maxInputs AnonInput.fields t.anonInputs
  swapInputs : Listed Config.maxInputs SwapIn.fields t.swapInputs
  swapOutputs : Listed Config.maxOutputs SwapOut.fields t.swapOutputs
  outputs : Listed Config.maxOutputs Output.fields t.outputs
  conservation : Bounded t.conservation
  referrerTag : Bounded t.referrerTag
  pqInputs : Listed Config.maxInputs PQInput.fields t.pqInputs
  pqOutputs : Listed Config.maxOutputs PQOutput.fields t.pqOutputs
  pqBlindDiff : Bounded t.pqBlindDiff
  vaultInputs : Listed Config.maxInputs VaultIn.fields t.vaultInputs
  vaultOutputs : Listed Config.maxOutputs VaultOut.fields t.vaultOutputs
  zkInputs : Listed Config.maxInputs ZKInput.fields t.zkInputs
  zkOutputs : Listed Config.maxOutputs ZKOutput.fields t.zkOutputs
  czkSpends : Listed Config.maxInputs CZKSpend.fields t.czkSpends

/-! ## Reading back -/

theorem rB_reads : Reads rB wB Bounded := by
  intro field bounded rest
  have small : field.length < 256 ^ 4 := lt_of_le_of_lt bounded (by decide)
  rw [rB, wB, List.append_assoc, (readUInt_reads 4).run small, refuse_run (not_lt.mpr bounded),
    remaining_run, refuse_run (by simp)]
  exact readFull_append rfl rest

theorem rB_yields : Yields rB Bounded := by
  refine (Yields.trivial _).bind fun n _ => (Yields.refuse _).bind fun _ short => ?_
  refine (Yields.trivial _).bind fun left _ => (Yields.trivial _).bind fun _ _ => ?_
  intro input field rest read
  exact (readFull_ok read).trans_le (not_lt.mp short)

theorem rU64_reads : Reads rU64 wU64 fun _ => True := by
  intro word _ rest
  rw [rU64, wU64, putU64, (readUInt_reads 8).run word.toNat_lt, UInt64.ofNat_toNat]
  rfl

theorem rBool_reads : Reads rBool wBool fun _ => True := by
  intro flag _ rest
  cases flag <;> rfl

section Run

variable {β : Type}

theorem rB_run {field : Bytes} (bounded : Bounded field) (next : Bytes → Reader β) (rest : Bytes) :
    (rB >>= next) (wB field ++ rest) = next field rest :=
  rB_reads.run bounded rest

theorem rU64_run (word : UInt64) (next : UInt64 → Reader β) (rest : Bytes) :
    (rU64 >>= next) (wU64 word ++ rest) = next word rest :=
  rU64_reads.run trivial rest

theorem rBool_run (flag : Bool) (next : Bool → Reader β) (rest : Bytes) :
    (rBool >>= next) (wBool flag ++ rest) = next flag rest :=
  rBool_reads.run trivial rest

theorem readByte_run (byte : UInt8) (next : UInt8 → Reader β) (rest : Bytes) :
    (readByte >>= next) ([byte] ++ rest) = next byte rest :=
  bind_run rfl

end Run

section Lists

variable {α : Type} {reader : Reader α} {encode : α → Bytes} {fields : α → List Bytes}

/-- A list is read back. -/
theorem rList_reads {most : Nat} (word : most < 2 ^ 64) (message : String)
    (reads : Reads reader encode (Fits fields)) :
    Reads (rList most message reader) (putList encode) (Listed most fields) := by
  intro values listed rest
  have count : (UInt64.ofNat values.length).toNat = values.length :=
    UInt64.toNat_ofNat_of_lt' (listed.1.trans_lt word)
  have code : putU64 values.length = wU64 (UInt64.ofNat values.length) := by
    rw [wU64, count]
  rw [rList, putList, code, List.append_assoc, rU64_reads.run trivial,
    refuse_run (by rw [count]; exact not_lt.mpr listed.1), count]
  exact reads.times values listed.2 rest

theorem rList_yields {most : Nat} (message : String)
    (yields : Yields reader (Fits fields)) :
    Yields (rList most message reader) (Listed most fields) := by
  refine (Yields.trivial _).bind fun n _ => (Yields.refuse _).bind fun _ within => ?_
  intro input values rest read
  obtain ⟨count, each⟩ := yields.times n.toNat input values rest read
  exact ⟨count.trans_le (not_lt.mp within), each⟩

end Lists

/-! ## Records

A record's decoder reads its serialization back when its fields are bounded, and returns
only records whose fields are.
-/

theorem Input.reads : Reads Input.read Input.serialize (Fits Input.fields) := by
  intro record fits rest
  simp only [Fits, Input.fields, List.forall_mem_cons] at fits
  simp only [Input.read, Input.serialize, List.append_assoc, rB_run, fits]
  rfl

theorem Input.yields : Yields Input.read (Fits Input.fields) := by
  refine rB_yields.bind fun outputRef _ =>
    rB_yields.bind fun ownershipProof _ =>
    rB_yields.bind fun pseudoCommitment _ =>
    rB_yields.bind fun equalityProof _ =>
    rB_yields.bind fun keyImage _ =>
    rB_yields.bind fun keyImageProof _ => .pure ?_
  simp [Fits, Input.fields, *]

theorem AnonInput.reads : Reads AnonInput.read AnonInput.serialize (Fits AnonInput.fields) := by
  intro record fits rest
  simp only [Fits, AnonInput.fields, List.forall_mem_cons] at fits
  simp only [AnonInput.read, AnonInput.serialize, List.append_assoc, rB_run, rU64_run, fits]
  rfl

theorem AnonInput.yields : Yields AnonInput.read (Fits AnonInput.fields) := by
  refine (Yields.trivial _).bind fun poolID _ => rB_yields.bind fun tag _ =>
    rB_yields.bind fun pseudoCommitment _ =>
    rB_yields.bind fun proof _ => .pure ?_
  simp [Fits, AnonInput.fields, *]

theorem SwapIn.reads : Reads SwapIn.read SwapIn.serialize (Fits SwapIn.fields) := by
  intro record fits rest
  simp only [Fits, SwapIn.fields, List.forall_mem_cons] at fits
  simp only [SwapIn.read, SwapIn.serialize, List.append_assoc, rB_run, rBool_run, fits]
  rfl

theorem SwapIn.yields : Yields SwapIn.read (Fits SwapIn.fields) := by
  refine rB_yields.bind fun swapKey _ => (Yields.trivial _).bind fun isRefund _ =>
    rB_yields.bind fun sig _ => .pure ?_
  simp [Fits, SwapIn.fields, *]

theorem SwapOut.reads : Reads SwapOut.read SwapOut.serialize (Fits SwapOut.fields) := by
  intro record fits rest
  simp only [Fits, SwapOut.fields, List.forall_mem_cons] at fits
  simp only [SwapOut.read, SwapOut.serialize, List.append_assoc, rB_run, rU64_run, fits]
  rfl

theorem SwapOut.yields : Yields SwapOut.read (Fits SwapOut.fields) := by
  refine rB_yields.bind fun swapKey _ => (Yields.trivial _).bind fun amount _ =>
    rB_yields.bind fun claimKey _ => rB_yields.bind fun refundKey _ =>
    (Yields.trivial _).bind fun unlockHeight _ => rB_yields.bind fun claimA _ =>
    rB_yields.bind fun claimB _ => rB_yields.bind fun popA _ =>
    rB_yields.bind fun popB _ => rB_yields.bind fun claimR _ =>
    rB_yields.bind fun claimT _ => .pure ?_
  simp [Fits, SwapOut.fields, *]

theorem Output.reads : Reads Output.read Output.serialize (Fits Output.fields) := by
  intro record fits rest
  simp only [Fits, Output.fields, List.forall_mem_cons] at fits
  simp only [Output.read, Output.serialize, List.append_assoc, rB_run, rU64_run, readByte_run, fits]
  rfl

theorem Output.yields : Yields Output.read (Fits Output.fields) := by
  refine rB_yields.bind fun oneTimeKey _ =>
    rB_yields.bind fun txPubKey _ => rB_yields.bind fun commitment _ =>
    rB_yields.bind fun rangeProof _ => (Yields.trivial _).bind fun primeNonce _ =>
    (Yields.trivial _).bind fun lockUntil _ => rB_yields.bind fun encAmount _ =>
    rB_yields.bind fun encMask _ => (Yields.trivial _).bind fun viewTag _ => .pure ?_
  simp [Fits, Output.fields, *]

theorem PQInput.reads : Reads PQInput.read PQInput.serialize (Fits PQInput.fields) := by
  intro record fits rest
  simp only [Fits, PQInput.fields, List.forall_mem_cons] at fits
  simp only [PQInput.read, PQInput.serialize, List.append_assoc, rB_run, fits]
  rfl

theorem PQInput.yields : Yields PQInput.read (Fits PQInput.fields) := by
  refine rB_yields.bind fun outputRef _ => rB_yields.bind fun p _ =>
    rB_yields.bind fun wotsRoot _ => rB_yields.bind fun nullifier _ =>
    rB_yields.bind fun anchor _ => rB_yields.bind fun hybridSig _ =>
    rB_yields.bind fun membership _ => .pure ?_
  simp [Fits, PQInput.fields, *]

theorem PQOutput.reads : Reads PQOutput.read PQOutput.serialize (Fits PQOutput.fields) := by
  intro record fits rest
  simp only [Fits, PQOutput.fields, List.forall_mem_cons] at fits
  simp only [PQOutput.read, PQOutput.serialize, List.append_assoc, rB_run, rU64_run, fits]
  rfl

theorem PQOutput.yields : Yields PQOutput.read (Fits PQOutput.fields) := by
  refine rB_yields.bind fun oneTimeKey _ => (Yields.trivial _).bind fun amount _ =>
    rB_yields.bind fun kemCiphertext _ =>
    rB_yields.bind fun viewTag _ => rB_yields.bind fun commitment _ =>
    rB_yields.bind fun encAmount _ => rB_yields.bind fun mac _ => .pure ?_
  simp [Fits, PQOutput.fields, *]

theorem VaultIn.reads : Reads VaultIn.read VaultIn.serialize (Fits VaultIn.fields) := by
  intro record fits rest
  simp only [Fits, VaultIn.fields, List.forall_mem_cons] at fits
  simp only [VaultIn.read, VaultIn.serialize, List.append_assoc, rB_run, rU64_run, fits]
  rfl

theorem VaultIn.yields : Yields VaultIn.read (Fits VaultIn.fields) := by
  refine rB_yields.bind fun vaultKey _ => (Yields.trivial _).bind fun yield _ =>
    rB_yields.bind fun sig _ => .pure ?_
  simp [Fits, VaultIn.fields, *]

theorem VaultOut.reads : Reads VaultOut.read VaultOut.serialize (Fits VaultOut.fields) := by
  intro record fits rest
  simp only [Fits, VaultOut.fields, List.forall_mem_cons] at fits
  simp only [VaultOut.read, VaultOut.serialize, List.append_assoc, rB_run, rU64_run, fits]
  rfl

theorem VaultOut.yields : Yields VaultOut.read (Fits VaultOut.fields) := by
  refine rB_yields.bind fun vaultKey _ => (Yields.trivial _).bind fun amount _ =>
    (Yields.trivial _).bind fun term _ => rB_yields.bind fun ownerKey _ => .pure ?_
  simp [Fits, VaultOut.fields, *]

theorem ZKInput.reads : Reads ZKInput.read ZKInput.serialize (Fits ZKInput.fields) := by
  intro record fits rest
  simp only [Fits, ZKInput.fields, List.forall_mem_cons] at fits
  simp only [ZKInput.read, ZKInput.serialize, List.append_assoc, rB_run, rU64_run, fits]
  rfl

theorem ZKInput.yields : Yields ZKInput.read (Fits ZKInput.fields) := by
  refine rB_yields.bind fun nullifier _ => (Yields.trivial _).bind fun amount _ =>
    rB_yields.bind fun anchor _ => rB_yields.bind fun proof _ => .pure ?_
  simp [Fits, ZKInput.fields, *]

theorem ZKOutput.reads : Reads ZKOutput.read ZKOutput.serialize (Fits ZKOutput.fields) := by
  intro record fits rest
  simp only [Fits, ZKOutput.fields, List.forall_mem_cons] at fits
  simp only [ZKOutput.read, ZKOutput.serialize, List.append_assoc, rB_run, rU64_run, readByte_run, fits]
  rfl

theorem ZKOutput.yields : Yields ZKOutput.read (Fits ZKOutput.fields) := by
  refine rB_yields.bind fun leaf _ => (Yields.trivial _).bind fun amount _ =>
    rB_yields.bind fun mintProof _ => rB_yields.bind fun key _ =>
    rB_yields.bind fun txPubKey _ => (Yields.trivial _).bind fun viewTag _ =>
    .pure ?_
  simp [Fits, ZKOutput.fields, *]

theorem CZKSpend.reads : Reads CZKSpend.read CZKSpend.serialize (Fits CZKSpend.fields) := by
  intro record fits rest
  simp only [Fits, CZKSpend.fields, List.forall_mem_cons] at fits
  simp only [CZKSpend.read, CZKSpend.serialize, List.append_assoc, rB_run, rU64_run, readByte_run, fits]
  rfl

theorem CZKSpend.yields : Yields CZKSpend.read (Fits CZKSpend.fields) := by
  refine rB_yields.bind fun nullifier _ => rB_yields.bind fun anchor _ =>
    rB_yields.bind fun leafOut _ => (Yields.trivial _).bind fun fee _ =>
    rB_yields.bind fun proof _ => rB_yields.bind fun key _ =>
    rB_yields.bind fun txPubKey _ => (Yields.trivial _).bind fun viewTag _ =>
    rB_yields.bind fun encAmount _ => .pure ?_
  simp [Fits, CZKSpend.fields, *]

/-! ## Nothing else is read

From the serialization of a record with short fields its decoder reads the record or refuses.
-/

/-- A field whose length fits its prefix. -/
def Short (field : Bytes) : Prop := field.length < 256 ^ 4

/-- A record whose fields are short. -/
def Coded {α : Type} (encode : α → Bytes) (value : α) : Prop := (encode value).length < 256 ^ 4

theorem length_field (field : Bytes) : (wB field).length = 4 + field.length := by
  simp [wB]

theorem rB_faithful : Faithful rB wB Short := by
  intro field short rest out read
  rw [rB, wB, List.append_assoc, (readUInt_reads 4).run short] at read
  obtain ⟨_, middle, fine, read⟩ := bind_ok.mp read
  obtain ⟨-, same⟩ := refuse_ok.mp fine
  dsimp only at same
  rw [same, remaining_run, refuse_run (by simp), readFull_append rfl] at read
  exact (Except.ok.inj read).symm

theorem readByte_faithful : Faithful readByte (fun byte => [byte]) fun _ => True := by
  intro byte _ rest out read
  exact (Except.ok.inj read).symm

/-- A list that was read is what was written. -/
theorem rList_faithful {α : Type} {most : Nat} {message : String} {reader : Reader α}
    {encode : α → Bytes} (faithful : Faithful reader encode (Coded encode)) :
    Faithful (rList most message reader) (putList encode) fun values =>
      values.length < 2 ^ 64 ∧ ∀ value ∈ values, Coded encode value := by
  rintro values ⟨few, coded⟩ rest out read
  have count : (UInt64.ofNat values.length).toNat = values.length :=
    UInt64.toNat_ofNat_of_lt' few
  have code : putU64 values.length = wU64 (UInt64.ofNat values.length) := by
    rw [wU64, count]
  rw [rList, putList, code, List.append_assoc, rU64_reads.run trivial, count] at read
  obtain ⟨_, middle, fine, read⟩ := bind_ok.mp read
  obtain ⟨-, same⟩ := refuse_ok.mp fine
  dsimp only at same
  rw [same] at read
  exact faithful.times coded read

theorem listed_short {α : Type} {encode : α → Bytes} {values : List α}
    (short : (putList encode values).length < 256 ^ 4)
    (positive : ∀ value, 0 < (encode value).length) :
    values.length < 2 ^ 64 ∧ ∀ value ∈ values, Coded encode value := by
  have count : values.length ≤ (values.flatMap encode).length := by
    induction values with
    | nil => rfl
    | cons value values ih =>
      simp only [putList, putU64, List.flatMap_cons, List.length_append, length_bigEndian,
        List.length_cons] at short ih ⊢
      have := positive value
      have := ih (by omega)
      omega
  simp only [putList, putU64, List.length_append, length_bigEndian] at short
  refine ⟨by omega, fun value member => ?_⟩
  have part := (List.sublist_flatten_of_mem (List.mem_map_of_mem (f := encode) member)).length_le
  rw [← List.flatMap_def] at part
  unfold Coded
  omega

theorem Input.positive (record : Input) : 0 < record.serialize.length := by
  simp [Input.serialize, length_field]

/-- An input that was read is what was written. -/
theorem Input.faithful : Faithful Input.read Input.serialize (Coded Input.serialize) := by
  intro record coded rest out read
  simp only [Coded, Input.serialize, List.length_append, length_field] at coded
  unfold Input.read Input.serialize at read
  simp only [List.append_assoc] at read
  replace read := rB_faithful.next (by unfold Short; omega) read
  replace read := rB_faithful.next (by unfold Short; omega) read
  replace read := rB_faithful.next (by unfold Short; omega) read
  replace read := rB_faithful.next (by unfold Short; omega) read
  replace read := rB_faithful.next (by unfold Short; omega) read
  replace read := rB_faithful.next (by unfold Short; omega) read
  exact (Except.ok.inj read).symm

theorem AnonInput.positive (record : AnonInput) : 0 < record.serialize.length := by
  simp [AnonInput.serialize, length_field]

/-- So is an anonymous input. -/
theorem AnonInput.faithful : Faithful AnonInput.read AnonInput.serialize (Coded AnonInput.serialize) := by
  intro record coded rest out read
  simp only [Coded, AnonInput.serialize, List.length_append, length_field] at coded
  unfold AnonInput.read AnonInput.serialize at read
  simp only [List.append_assoc] at read
  replace read := rU64_reads.faithful.next trivial read
  replace read := rB_faithful.next (by unfold Short; omega) read
  replace read := rB_faithful.next (by unfold Short; omega) read
  replace read := rB_faithful.next (by unfold Short; omega) read
  exact (Except.ok.inj read).symm

theorem SwapIn.positive (record : SwapIn) : 0 < record.serialize.length := by
  simp [SwapIn.serialize, length_field]

/-- So is a swap input. -/
theorem SwapIn.faithful : Faithful SwapIn.read SwapIn.serialize (Coded SwapIn.serialize) := by
  intro record coded rest out read
  simp only [Coded, SwapIn.serialize, List.length_append, length_field] at coded
  unfold SwapIn.read SwapIn.serialize at read
  simp only [List.append_assoc] at read
  replace read := rB_faithful.next (by unfold Short; omega) read
  replace read := rBool_reads.faithful.next trivial read
  replace read := rB_faithful.next (by unfold Short; omega) read
  exact (Except.ok.inj read).symm

theorem SwapOut.positive (record : SwapOut) : 0 < record.serialize.length := by
  simp [SwapOut.serialize, length_field]

/-- So is a swap output. -/
theorem SwapOut.faithful : Faithful SwapOut.read SwapOut.serialize (Coded SwapOut.serialize) := by
  intro record coded rest out read
  simp only [Coded, SwapOut.serialize, List.length_append, length_field] at coded
  unfold SwapOut.read SwapOut.serialize at read
  simp only [List.append_assoc] at read
  replace read := rB_faithful.next (by unfold Short; omega) read
  replace read := rU64_reads.faithful.next trivial read
  replace read := rB_faithful.next (by unfold Short; omega) read
  replace read := rB_faithful.next (by unfold Short; omega) read
  replace read := rU64_reads.faithful.next trivial read
  replace read := rB_faithful.next (by unfold Short; omega) read
  replace read := rB_faithful.next (by unfold Short; omega) read
  replace read := rB_faithful.next (by unfold Short; omega) read
  replace read := rB_faithful.next (by unfold Short; omega) read
  replace read := rB_faithful.next (by unfold Short; omega) read
  replace read := rB_faithful.next (by unfold Short; omega) read
  exact (Except.ok.inj read).symm

theorem Output.positive (record : Output) : 0 < record.serialize.length := by
  simp [Output.serialize, length_field]

/-- So is an output. -/
theorem Output.faithful : Faithful Output.read Output.serialize (Coded Output.serialize) := by
  intro record coded rest out read
  simp only [Coded, Output.serialize, List.length_append, length_field] at coded
  unfold Output.read Output.serialize at read
  simp only [List.append_assoc] at read
  replace read := rB_faithful.next (by unfold Short; omega) read
  replace read := rB_faithful.next (by unfold Short; omega) read
  replace read := rB_faithful.next (by unfold Short; omega) read
  replace read := rB_faithful.next (by unfold Short; omega) read
  replace read := rU64_reads.faithful.next trivial read
  replace read := rU64_reads.faithful.next trivial read
  replace read := rB_faithful.next (by unfold Short; omega) read
  replace read := rB_faithful.next (by unfold Short; omega) read
  replace read := readByte_faithful.next trivial read
  exact (Except.ok.inj read).symm

theorem PQInput.positive (record : PQInput) : 0 < record.serialize.length := by
  simp [PQInput.serialize, length_field]

/-- So is a post-quantum input. -/
theorem PQInput.faithful : Faithful PQInput.read PQInput.serialize (Coded PQInput.serialize) := by
  intro record coded rest out read
  simp only [Coded, PQInput.serialize, List.length_append, length_field] at coded
  unfold PQInput.read PQInput.serialize at read
  simp only [List.append_assoc] at read
  replace read := rB_faithful.next (by unfold Short; omega) read
  replace read := rB_faithful.next (by unfold Short; omega) read
  replace read := rB_faithful.next (by unfold Short; omega) read
  replace read := rB_faithful.next (by unfold Short; omega) read
  replace read := rB_faithful.next (by unfold Short; omega) read
  replace read := rB_faithful.next (by unfold Short; omega) read
  replace read := rB_faithful.next (by unfold Short; omega) read
  exact (Except.ok.inj read).symm

theorem PQOutput.positive (record : PQOutput) : 0 < record.serialize.length := by
  simp [PQOutput.serialize, length_field]

/-- So is a post-quantum output. -/
theorem PQOutput.faithful : Faithful PQOutput.read PQOutput.serialize (Coded PQOutput.serialize) := by
  intro record coded rest out read
  simp only [Coded, PQOutput.serialize, List.length_append, length_field] at coded
  unfold PQOutput.read PQOutput.serialize at read
  simp only [List.append_assoc] at read
  replace read := rB_faithful.next (by unfold Short; omega) read
  replace read := rU64_reads.faithful.next trivial read
  replace read := rB_faithful.next (by unfold Short; omega) read
  replace read := rB_faithful.next (by unfold Short; omega) read
  replace read := rB_faithful.next (by unfold Short; omega) read
  replace read := rB_faithful.next (by unfold Short; omega) read
  replace read := rB_faithful.next (by unfold Short; omega) read
  exact (Except.ok.inj read).symm

theorem VaultIn.positive (record : VaultIn) : 0 < record.serialize.length := by
  simp [VaultIn.serialize, length_field]

/-- So is a vault input. -/
theorem VaultIn.faithful : Faithful VaultIn.read VaultIn.serialize (Coded VaultIn.serialize) := by
  intro record coded rest out read
  simp only [Coded, VaultIn.serialize, List.length_append, length_field] at coded
  unfold VaultIn.read VaultIn.serialize at read
  simp only [List.append_assoc] at read
  replace read := rB_faithful.next (by unfold Short; omega) read
  replace read := rU64_reads.faithful.next trivial read
  replace read := rB_faithful.next (by unfold Short; omega) read
  exact (Except.ok.inj read).symm

theorem VaultOut.positive (record : VaultOut) : 0 < record.serialize.length := by
  simp [VaultOut.serialize, length_field]

/-- So is a vault output. -/
theorem VaultOut.faithful : Faithful VaultOut.read VaultOut.serialize (Coded VaultOut.serialize) := by
  intro record coded rest out read
  simp only [Coded, VaultOut.serialize, List.length_append, length_field] at coded
  unfold VaultOut.read VaultOut.serialize at read
  simp only [List.append_assoc] at read
  replace read := rB_faithful.next (by unfold Short; omega) read
  replace read := rU64_reads.faithful.next trivial read
  replace read := rU64_reads.faithful.next trivial read
  replace read := rB_faithful.next (by unfold Short; omega) read
  exact (Except.ok.inj read).symm

theorem ZKInput.positive (record : ZKInput) : 0 < record.serialize.length := by
  simp [ZKInput.serialize, length_field]

/-- So is a nullifier spend. -/
theorem ZKInput.faithful : Faithful ZKInput.read ZKInput.serialize (Coded ZKInput.serialize) := by
  intro record coded rest out read
  simp only [Coded, ZKInput.serialize, List.length_append, length_field] at coded
  unfold ZKInput.read ZKInput.serialize at read
  simp only [List.append_assoc] at read
  replace read := rB_faithful.next (by unfold Short; omega) read
  replace read := rU64_reads.faithful.next trivial read
  replace read := rB_faithful.next (by unfold Short; omega) read
  replace read := rB_faithful.next (by unfold Short; omega) read
  exact (Except.ok.inj read).symm

theorem ZKOutput.positive (record : ZKOutput) : 0 < record.serialize.length := by
  simp [ZKOutput.serialize, length_field]

/-- So is a mint. -/
theorem ZKOutput.faithful : Faithful ZKOutput.read ZKOutput.serialize (Coded ZKOutput.serialize) := by
  intro record coded rest out read
  simp only [Coded, ZKOutput.serialize, List.length_append, length_field] at coded
  unfold ZKOutput.read ZKOutput.serialize at read
  simp only [List.append_assoc] at read
  replace read := rB_faithful.next (by unfold Short; omega) read
  replace read := rU64_reads.faithful.next trivial read
  replace read := rB_faithful.next (by unfold Short; omega) read
  replace read := rB_faithful.next (by unfold Short; omega) read
  replace read := rB_faithful.next (by unfold Short; omega) read
  replace read := readByte_faithful.next trivial read
  exact (Except.ok.inj read).symm

theorem CZKSpend.positive (record : CZKSpend) : 0 < record.serialize.length := by
  simp [CZKSpend.serialize, length_field]

/-- So is a confidential spend. -/
theorem CZKSpend.faithful : Faithful CZKSpend.read CZKSpend.serialize (Coded CZKSpend.serialize) := by
  intro record coded rest out read
  simp only [Coded, CZKSpend.serialize, List.length_append, length_field] at coded
  unfold CZKSpend.read CZKSpend.serialize at read
  simp only [List.append_assoc] at read
  replace read := rB_faithful.next (by unfold Short; omega) read
  replace read := rB_faithful.next (by unfold Short; omega) read
  replace read := rB_faithful.next (by unfold Short; omega) read
  replace read := rU64_reads.faithful.next trivial read
  replace read := rB_faithful.next (by unfold Short; omega) read
  replace read := rB_faithful.next (by unfold Short; omega) read
  replace read := rB_faithful.next (by unfold Short; omega) read
  replace read := readByte_faithful.next trivial read
  replace read := rB_faithful.next (by unfold Short; omega) read
  exact (Except.ok.inj read).symm

/-! ## Transactions -/

namespace Transaction

/-- A transaction within the limits is read back. -/
theorem reads : Reads read serialize Limits := by
  intro t limits rest
  have version : Reads (readUInt 2) (bigEndian 2) (· < 256 ^ 2) := readUInt_reads 2
  unfold serialize
  simp only [List.append_assoc]
  refine (version.run t.version.toNat_lt _).trans ?_
  refine (rBool_run _ _ _).trans ?_
  refine ((rList_reads (by decide) _ Input.reads).run limits.inputs _).trans ?_
  refine ((rList_reads (by decide) _ AnonInput.reads).run limits.anonInputs _).trans ?_
  refine ((rList_reads (by decide) _ SwapIn.reads).run limits.swapInputs _).trans ?_
  refine ((rList_reads (by decide) _ SwapOut.reads).run limits.swapOutputs _).trans ?_
  refine ((rList_reads (by decide) _ Output.reads).run limits.outputs _).trans ?_
  refine (rU64_run _ _ _).trans ?_
  refine (rB_run limits.conservation _ _).trans ?_
  refine (rU64_run _ _ _).trans ?_
  refine (rU64_run _ _ _).trans ?_
  refine (rB_run limits.referrerTag _ _).trans ?_
  refine (rU64_run _ _ _).trans ?_
  refine ((rList_reads (by decide) _ PQInput.reads).run limits.pqInputs _).trans ?_
  refine ((rList_reads (by decide) _ PQOutput.reads).run limits.pqOutputs _).trans ?_
  refine (rB_run limits.pqBlindDiff _ _).trans ?_
  refine ((rList_reads (by decide) _ VaultIn.reads).run limits.vaultInputs _).trans ?_
  refine ((rList_reads (by decide) _ VaultOut.reads).run limits.vaultOutputs _).trans ?_
  refine ((rList_reads (by decide) _ ZKInput.reads).run limits.zkInputs _).trans ?_
  refine ((rList_reads (by decide) _ ZKOutput.reads).run limits.zkOutputs _).trans ?_
  refine ((rList_reads (by decide) _ CZKSpend.reads).run limits.czkSpends _).trans ?_
  rw [UInt16.ofNat_toNat]
  rfl

/-- A transaction that was read is within the limits. -/
theorem yields : Yields read Limits := by
  refine (Yields.trivial _).bind fun version _ => (Yields.trivial _).bind fun isCoinbase _ =>
    (rList_yields _ Input.yields).bind fun inputs inputsFit =>
    (rList_yields _ AnonInput.yields).bind fun anonInputs anonInputsFit =>
    (rList_yields _ SwapIn.yields).bind fun swapInputs swapInputsFit =>
    (rList_yields _ SwapOut.yields).bind fun swapOutputs swapOutputsFit =>
    (rList_yields _ Output.yields).bind fun outputs outputsFit =>
    (Yields.trivial _).bind fun fee _ => rB_yields.bind fun conservation conservationFits =>
    (Yields.trivial _).bind fun height _ => (Yields.trivial _).bind fun minted _ =>
    rB_yields.bind fun referrerTag referrerTagFits => (Yields.trivial _).bind fun extraNonce _ =>
    (rList_yields _ PQInput.yields).bind fun pqInputs pqInputsFit =>
    (rList_yields _ PQOutput.yields).bind fun pqOutputs pqOutputsFit =>
    rB_yields.bind fun pqBlindDiff pqBlindDiffFits =>
    (rList_yields _ VaultIn.yields).bind fun vaultInputs vaultInputsFit =>
    (rList_yields _ VaultOut.yields).bind fun vaultOutputs vaultOutputsFit =>
    (rList_yields _ ZKInput.yields).bind fun zkInputs zkInputsFit =>
    (rList_yields _ ZKOutput.yields).bind fun zkOutputs zkOutputsFit =>
    (rList_yields _ CZKSpend.yields).bind fun czkSpends czkSpendsFit => .pure ?_
  exact ⟨inputsFit, anonInputsFit, swapInputsFit, swapOutputsFit, outputsFit, conservationFits,
    referrerTagFits, pqInputsFit, pqOutputsFit, pqBlindDiffFits, vaultInputsFit, vaultOutputsFit,
    zkInputsFit, zkOutputsFit, czkSpendsFit⟩

/-- The parts of a transaction whose serialization is short. -/
theorem faithful : Faithful read serialize (Coded serialize) := by
  intro t coded rest out run
  have version : Reads (readUInt 2) (bigEndian 2) (· < 256 ^ 2) := readUInt_reads 2
  obtain ⟨size, sum, bound⟩ : ∃ n, n = (serialize t).length ∧ n < 256 ^ 4 := ⟨_, rfl, coded⟩
  unfold serialize at sum
  simp only [List.length_append, length_field] at sum
  unfold serialize at run
  simp only [List.append_assoc] at run
  replace run := version.faithful.next t.version.toNat_lt run
  replace run := rBool_reads.faithful.next trivial run
  replace run := (rList_faithful Input.faithful).next (listed_short (by omega) Input.positive) run
  replace run := (rList_faithful AnonInput.faithful).next (listed_short (by omega) AnonInput.positive)
    run
  replace run := (rList_faithful SwapIn.faithful).next (listed_short (by omega) SwapIn.positive) run
  replace run := (rList_faithful SwapOut.faithful).next (listed_short (by omega) SwapOut.positive) run
  replace run := (rList_faithful Output.faithful).next (listed_short (by omega) Output.positive) run
  replace run := rU64_reads.faithful.next trivial run
  replace run := rB_faithful.next (by unfold Short; omega) run
  replace run := rU64_reads.faithful.next trivial run
  replace run := rU64_reads.faithful.next trivial run
  replace run := rB_faithful.next (by unfold Short; omega) run
  replace run := rU64_reads.faithful.next trivial run
  replace run := (rList_faithful PQInput.faithful).next (listed_short (by omega) PQInput.positive) run
  replace run := (rList_faithful PQOutput.faithful).next (listed_short (by omega) PQOutput.positive) run
  replace run := rB_faithful.next (by unfold Short; omega) run
  replace run := (rList_faithful VaultIn.faithful).next (listed_short (by omega) VaultIn.positive) run
  replace run := (rList_faithful VaultOut.faithful).next (listed_short (by omega) VaultOut.positive) run
  replace run := (rList_faithful ZKInput.faithful).next (listed_short (by omega) ZKInput.positive) run
  replace run := (rList_faithful ZKOutput.faithful).next (listed_short (by omega) ZKOutput.positive) run
  replace run := (rList_faithful CZKSpend.faithful).next (listed_short (by omega) CZKSpend.positive) run
  rw [UInt16.ofNat_toNat] at run
  exact (Except.ok.inj run).symm

theorem deserialize_faithful {t t' : Transaction} (short : t.serialize.length < 256 ^ 4)
    (decoded : deserialize t.serialize = .ok t') : t' = t := by
  rw [deserialize] at decoded
  by_cases long : maxTxBytes < t.serialize.length
  · rw [if_pos long] at decoded
    exact nomatch decoded
  · rw [if_neg long] at decoded
    exact faithful.parse short decoded

theorem deserialize_serialize {t : Transaction} (limits : t.Limits)
    (short : t.serialize.length ≤ maxTxBytes) : deserialize t.serialize = .ok t := by
  rw [deserialize, if_neg (not_lt.mpr short)]
  exact reads.parse limits

theorem deserialize_limits {data : Bytes} {t : Transaction} (decoded : deserialize data = .ok t) :
    t.Limits := by
  unfold deserialize at decoded
  split_ifs at decoded
  exact yields.parse decoded

end Transaction

end Obscura.Tx

namespace Obscura

open Wire Reader Tx

/-! ## Blocks -/

/-- A signed number in eight bytes. -/
def ri64 : Reader Int := do
  let n ← readUInt 8
  pure (if n < 2 ^ 63 then (n : Int) else n - 2 ^ 64)

/-- The fields of a header. -/
def Header.read : Reader Header := do
  let version ← readUInt 2
  let height ← readUInt 8
  let prevHash ← readFull 32
  let timestamp ← ri64
  let difficulty ← readUInt 8
  let nonce ← readUInt 8
  let merkleRoot ← readFull 32
  let n ← readUInt 4
  let left ← remaining
  refuse (2 ^ 16 < n ∨ left < n) "block: acc value too large"
  let accValue ← readFull n
  let accSize ← readUInt 8
  let pqAccRoot ← readFull 32
  let nullRoot ← readFull 32
  let cmRoot ← readFull 32
  let numTxs ← readUInt 4
  let porRoot ← readFull 32
  let stateRoot ← readFull 32
  pure { version, height, prevHash, timestamp, difficulty, nonce, merkleRoot, accValue, accSize,
         pqAccRoot, nullRoot, cmRoot, numTxs, porRoot, stateRoot }

/-- `ParseHeader` ignores what follows. -/
def parseHeader (data : Bytes) : Except String Header := (Header.read data).map Prod.fst

/-- A hash and its side. -/
def MerkleStep.read : Reader MerkleStep := do
  let hash ← readFull 32
  let right ← rBool
  pure { hash, right }

/-- The height, the transaction and at most 64 steps. -/
def PoREntry.read : Reader PoREntry := do
  let height ← readUInt 8
  let tl ← readUInt 4
  let left ← remaining
  refuse (left < tl ∨ maxTxBytes < tl) "block: PoR tx too large"
  let txBytes ← readFull tl
  let ns ← readUInt 4
  let left ← remaining
  refuse (64 < ns ∨ left < ns * 33) "block: PoR branch too long"
  let steps ← times MerkleStep.read ns
  pure { height, txBytes, steps }

/-- `ParsePoREntry` ignores what follows. -/
def parsePoREntry (data : Bytes) : Except String PoREntry := (PoREntry.read data).map Prod.fst

/-- A part behind its four-byte length, decoded on its own. -/
def readPart {α : Type} (most : Option Nat) (message : String) (parse : Bytes → Except String α) :
    Reader α := do
  let n ← readUInt 4
  let left ← remaining
  refuse (left < n ∨ most.any (· < n)) message
  let data ← readFull n
  ofOutcome (parse data)

/-- A counted list; there cannot be more parts than bytes. -/
def readParts {α : Type} (message : String) (part : Reader α) : Reader (List α) := do
  let n ← readUInt 8
  let left ← remaining
  refuse (left < n) message
  times part n

/-- The header, the transactions and the answers, each in its frame. -/
def Block.read : Reader Block := do
  let header ← readPart none "block: header length exceeds input" parseHeader
  let txs ← readParts "block: too many txs for input size"
    (readPart (some maxTxBytes) "block: tx length exceeds input" Transaction.deserialize)
  let por ← readParts "block: too many PoR entries for input size"
    (readPart none "block: PoR entry length exceeds input" parsePoREntry)
  let left ← remaining
  refuse (left ≠ 0) "block: trailing bytes after block"
  pure { header, txs, por }

/-- A block of bounded size with nothing behind it. -/
def deserializeBlock (data : Bytes) : Except String Block :=
  if Config.maxBlockBytes < data.length then
    .error "block: serialized block too large"
  else
    (Block.read data).map Prod.fst

/-- The ranges of the header's machine integers and the sizes of its hashes. -/
structure Header.Typed (h : Header) : Prop where
  version : h.version < 256 ^ 2
  height : h.height < 256 ^ 8
  prevHash : h.prevHash.length = 32
  timestamp : -2 ^ 63 ≤ h.timestamp ∧ h.timestamp < 2 ^ 63
  difficulty : h.difficulty < 256 ^ 8
  nonce : h.nonce < 256 ^ 8
  merkleRoot : h.merkleRoot.length = 32
  accSize : h.accSize < 256 ^ 8
  pqAccRoot : h.pqAccRoot.length = 32
  nullRoot : h.nullRoot.length = 32
  cmRoot : h.cmRoot.length = 32
  numTxs : h.numTxs < 256 ^ 4
  porRoot : h.porRoot.length = 32
  stateRoot : h.stateRoot.length = 32

/-- What the type of an answer says. -/
structure PoREntry.Typed (entry : PoREntry) : Prop where
  height : entry.height < 256 ^ 8
  steps : ∀ step ∈ entry.steps, step.hash.length = 32

/-- A value of the source's type `Block`. -/
structure Block.Typed (b : Block) : Prop where
  header : b.header.Typed
  por : ∀ entry ∈ b.por, entry.Typed

/-- What the decoder asks of a retrievability entry. -/
structure PoREntry.Limits (entry : PoREntry) : Prop where
  txBytes : entry.txBytes.length ≤ maxTxBytes
  steps : entry.steps.length ≤ 64

/-- What the decoder asks of the parts of a block. -/
structure Block.Limits (b : Block) : Prop where
  accValue : b.header.accValue.length ≤ 2 ^ 16
  txBytes : ∀ t ∈ b.txs, t.serialize.length ≤ maxTxBytes
  txs : ∀ t ∈ b.txs, t.Limits
  por : ∀ entry ∈ b.por, entry.Limits

theorem ri64_reads : Reads ri64 wi64 fun value => -2 ^ 63 ≤ value ∧ value < 2 ^ 63 := by
  rintro value ⟨low, high⟩ rest
  have small : (value % 2 ^ 64).toNat < 256 ^ 8 := by omega
  rw [ri64, wi64, putU64, (readUInt_reads 8).run small]
  have back : (if (value % 2 ^ 64).toNat < 2 ^ 63 then ((value % 2 ^ 64).toNat : Int)
      else (value % 2 ^ 64).toNat - 2 ^ 64) = value := by
    split_ifs <;> omega
  rw [back]
  rfl

/-- A header is read back. -/
theorem Header.reads : Reads Header.read Header.serialize fun h =>
    h.Typed ∧ h.accValue.length ≤ 2 ^ 16 := by
  rintro h ⟨typed, short⟩ rest
  have number : ∀ width, Reads (readUInt width) (bigEndian width) (· < 256 ^ width) :=
    readUInt_reads
  have length : h.accValue.length < 256 ^ 4 := short.trans_lt (by decide)
  have fixed : ∀ {hash : Hash} (next : Bytes → Reader Header) (rest : Bytes), hash.length = 32 →
      (readFull 32 >>= next) (hash ++ rest) = next hash rest :=
    fun next rest size => bind_run (readFull_append size rest)
  unfold Header.serialize Header.roots
  simp only [putU64, wB, List.append_assoc]
  refine ((number 2).run typed.version _).trans ?_
  refine ((number 8).run typed.height _).trans ?_
  refine (fixed _ _ typed.prevHash).trans ?_
  refine (ri64_reads.run typed.timestamp _).trans ?_
  refine ((number 8).run typed.difficulty _).trans ?_
  refine ((number 8).run typed.nonce _).trans ?_
  refine (fixed _ _ typed.merkleRoot).trans ?_
  refine ((number 4).run length _).trans ?_
  refine (remaining_run _).trans ?_
  refine (refuse_run ?_ _ _).trans ?_
  · simpa using short
  refine (bind_run (readFull_append rfl _)).trans ?_
  refine ((number 8).run typed.accSize _).trans ?_
  refine (fixed _ _ typed.pqAccRoot).trans ?_
  refine (fixed _ _ typed.nullRoot).trans ?_
  refine (fixed _ _ typed.cmRoot).trans ?_
  refine ((number 4).run typed.numTxs _).trans ?_
  refine (fixed _ _ typed.porRoot).trans ?_
  exact fixed _ _ typed.stateRoot

/-- From the serialization of a header nothing but the header is read. -/
theorem Header.faithful : Faithful Header.read Header.serialize fun h =>
    h.Typed ∧ h.accValue.length < 256 ^ 4 := by
  rintro h ⟨typed, short⟩ rest out run
  have number : ∀ width, Faithful (readUInt width) (bigEndian width) (· < 256 ^ width) :=
    fun width => (readUInt_reads width).faithful
  have fixed : Faithful (readFull 32) (fun hash : Bytes => hash) fun hash => hash.length = 32 :=
    Reads.faithful fun hash size rest => readFull_append size rest
  unfold Header.serialize Header.roots at run
  simp only [putU64, wB, List.append_assoc] at run
  replace run := (number 2).next typed.version run
  replace run := (number 8).next typed.height run
  replace run := fixed.next typed.prevHash run
  replace run := ri64_reads.faithful.next typed.timestamp run
  replace run := (number 8).next typed.difficulty run
  replace run := (number 8).next typed.nonce run
  replace run := fixed.next typed.merkleRoot run
  replace run := (number 4).next short run
  rw [remaining_run] at run
  obtain ⟨_, middle, fine, run⟩ := bind_ok.mp run
  obtain ⟨-, same⟩ := refuse_ok.mp fine
  dsimp only at same
  rw [same, bind_run (readFull_append rfl _)] at run
  replace run := (number 8).next typed.accSize run
  replace run := fixed.next typed.pqAccRoot run
  replace run := fixed.next typed.nullRoot run
  replace run := fixed.next typed.cmRoot run
  replace run := (number 4).next typed.numTxs run
  replace run := fixed.next typed.porRoot run
  replace run := fixed.next typed.stateRoot run
  exact (Except.ok.inj run).symm

/-- A header that was read has a short accumulator value. -/
theorem Header.yields : Yields Header.read fun h => h.accValue.length ≤ 2 ^ 16 := by
  refine (Yields.trivial _).bind fun version _ => (Yields.trivial _).bind fun height _ =>
    (Yields.trivial _).bind fun prevHash _ => (Yields.trivial _).bind fun timestamp _ =>
    (Yields.trivial _).bind fun difficulty _ => (Yields.trivial _).bind fun nonce _ =>
    (Yields.trivial _).bind fun merkleRoot _ => (Yields.trivial _).bind fun n _ =>
    (Yields.trivial _).bind fun left _ => (Yields.refuse _).bind fun _ short => ?_
  have field : Yields (readFull n) fun bytes => bytes.length = n := fun _ _ _ => readFull_ok
  refine field.bind fun accValue length => (Yields.trivial _).bind fun accSize _ =>
    (Yields.trivial _).bind fun pqAccRoot _ => (Yields.trivial _).bind fun nullRoot _ =>
    (Yields.trivial _).bind fun cmRoot _ => (Yields.trivial _).bind fun numTxs _ =>
    (Yields.trivial _).bind fun porRoot _ => (Yields.trivial _).bind fun stateRoot _ => .pure ?_
  rw [not_or, not_lt] at short
  exact length.trans_le short.1

theorem MerkleStep.reads : Reads MerkleStep.read (fun step => step.hash ++ wBool step.right)
    fun step => step.hash.length = 32 := by
  intro step size rest
  rw [MerkleStep.read, List.append_assoc, bind_run (readFull_append size _), rBool_run]
  rfl

theorem PoREntry.length_steps (entry : PoREntry) (typed : entry.Typed) :
    (entry.steps.flatMap fun step => step.hash ++ wBool step.right).length =
      entry.steps.length * 33 := by
  rw [List.length_flatMap, List.map_congr_left (g := fun _ => 33), List.map_const',
    List.sum_replicate_nat]
  intro step member
  simp [typed.steps step member, wBool]

/-- An entry is read back. -/
theorem PoREntry.reads : Reads PoREntry.read PoREntry.serialize fun entry =>
    entry.Typed ∧ entry.Limits := by
  rintro entry ⟨typed, limits⟩ rest
  have txLength : entry.txBytes.length < 256 ^ 4 := limits.txBytes.trans_lt (by decide)
  have stepCount : entry.steps.length < 256 ^ 4 := limits.steps.trans_lt (by decide)
  have branch := entry.length_steps typed
  unfold PoREntry.serialize
  simp only [putU64, wB, List.append_assoc]
  refine ((readUInt_reads 8).run typed.height _).trans ?_
  refine ((readUInt_reads 4).run txLength _).trans ?_
  refine (remaining_run _).trans ?_
  refine (refuse_run ?_ _ _).trans ?_
  · simpa using limits.txBytes
  refine (bind_run (readFull_append rfl _)).trans ?_
  refine ((readUInt_reads 4).run stepCount _).trans ?_
  refine (remaining_run _).trans ?_
  refine (refuse_run ?_ _ _).trans ?_
  · rw [List.length_append, branch]
    have := limits.steps
    omega
  exact bind_run (MerkleStep.reads.times entry.steps typed.steps rest)

theorem PoREntry.faithful : Faithful PoREntry.read PoREntry.serialize fun entry =>
    entry.Typed ∧ Coded PoREntry.serialize entry := by
  rintro entry ⟨typed, coded⟩ rest out run
  have branch := entry.length_steps typed
  obtain ⟨size, sum, bound⟩ : ∃ n, n = entry.serialize.length ∧ n < 256 ^ 4 := ⟨_, rfl, coded⟩
  unfold PoREntry.serialize at sum run
  simp only [putU64, List.length_append, length_field, length_bigEndian] at sum
  simp only [putU64, wB, List.append_assoc] at run
  replace run := (readUInt_reads 8).faithful.next typed.height run
  replace run := (readUInt_reads 4).faithful.next (show entry.txBytes.length < 256 ^ 4 by omega) run
  rw [remaining_run] at run
  obtain ⟨_, middle, fine, run⟩ := bind_ok.mp run
  obtain ⟨-, same⟩ := refuse_ok.mp fine
  dsimp only at same
  rw [same, bind_run (readFull_append rfl _)] at run
  replace run := (readUInt_reads 4).faithful.next (show entry.steps.length < 256 ^ 4 by omega) run
  rw [remaining_run] at run
  obtain ⟨_, middle, fine, run⟩ := bind_ok.mp run
  obtain ⟨-, same⟩ := refuse_ok.mp fine
  dsimp only at same
  rw [same] at run
  obtain ⟨steps, after, read, final⟩ := bind_ok.mp run
  obtain ⟨rfl, rfl⟩ := Prod.mk.inj (MerkleStep.reads.faithful.times typed.steps read)
  exact (pure_ok.mp final)

theorem PoREntry.yields : Yields PoREntry.read PoREntry.Limits := by
  refine (Yields.trivial _).bind fun height _ => (Yields.trivial _).bind fun tl _ =>
    (Yields.trivial _).bind fun left _ => (Yields.refuse _).bind fun _ short => ?_
  have field : Yields (readFull tl) fun bytes => bytes.length = tl := fun _ _ _ => readFull_ok
  refine field.bind fun txBytes length => (Yields.trivial _).bind fun ns _ =>
    (Yields.trivial _).bind fun left _ => (Yields.refuse _).bind fun _ few =>
    ((Yields.trivial _).times ns).bind fun steps count => .pure ?_
  rw [not_or, not_lt, not_lt] at short few
  exact ⟨length.trans_le short.2, count.1.trans_le few.1⟩

section Parts

variable {α : Type} {encode : α → Bytes}

/-- What reading a section says. -/
theorem readPart_ok {most : Option Nat} {message : String} {parse : Bytes → Except String α}
    {data rest : Bytes} (short : data.length < 256 ^ 4) {result : α × Bytes} :
    readPart most message parse (wB data ++ rest) = .ok result ↔
      (∀ limit ∈ most, data.length ≤ limit) ∧ parse data = .ok result.1 ∧ result.2 = rest := by
  rw [readPart, wB, List.append_assoc, (readUInt_reads 4).run short, remaining_run]
  by_cases larger : most.any (· < data.length) = true
  · constructor
    · intro read
      obtain ⟨_, _, fine, _⟩ := bind_ok.mp read
      exact absurd (Or.inr larger) (refuse_ok.mp fine).1
    · rintro ⟨within, -⟩
      obtain ⟨limit, chosen, exceeded⟩ := (Option.any_eq_true _ _).mp larger
      exact absurd (within limit chosen) (by simpa using exceeded)
  · rw [refuse_run (by simpa using larger), bind_run (readFull_append rfl rest), ofOutcome_ok]
    refine ⟨fun read => ⟨fun limit chosen => ?_, read⟩, fun facts => facts.2⟩
    simpa [Option.mem_def.mp chosen] using larger

theorem length_le_flatMap {values : List α} {value : α} (member : value ∈ values) :
    (encode value).length ≤ (values.flatMap encode).length := by
  rw [List.flatMap]
  exact (List.sublist_flatten_of_mem (List.mem_map_of_mem member)).length_le

theorem length_part (data : Bytes) : (wB data).length = 4 + data.length := by
  simp [wB]

theorem parts_le (values : List α) :
    values.length ≤ (values.flatMap fun value => wB (encode value)).length := by
  induction values with
  | nil => rfl
  | cons value values ih =>
    simp only [List.flatMap_cons, List.length_append, List.length_cons, length_part]
    omega

theorem readParts_run {message : String} {part : Reader α} {values : List α} {rest : Bytes}
    (count : values.length < 256 ^ 8) :
    readParts message part (putList (fun value => wB (encode value)) values ++ rest) =
      times part values.length ((values.flatMap fun value => wB (encode value)) ++ rest) := by
  have long := @parts_le _ encode values
  rw [readParts, putList, putU64, List.append_assoc, (readUInt_reads 8).run count, remaining_run,
    refuse_run (by rw [List.length_append]; omega)]

end Parts

section Block

variable {b : Block}

theorem Block.sizes (size : b.serialize.length ≤ Config.maxBlockBytes) :
    b.header.serialize.length < 256 ^ 4 ∧
      b.txs.length < 256 ^ 8 ∧ (∀ t ∈ b.txs, t.serialize.length < 256 ^ 4) ∧
      b.por.length < 256 ^ 8 ∧ ∀ entry ∈ b.por, entry.serialize.length < 256 ^ 4 := by
  have txCount := @parts_le _ Transaction.serialize b.txs
  have entryCount := @parts_le _ PoREntry.serialize b.por
  simp only [Block.serialize, putList, putU64, List.length_append, length_part, length_bigEndian,
    Config.maxBlockBytes] at size
  refine ⟨by omega, by omega, fun t member => ?_, by omega, fun entry member => ?_⟩
  · have within := @length_le_flatMap _ (fun t => wB t.serialize) _ _ member
    simp only [length_part] at within
    omega
  · have within := @length_le_flatMap _ (fun entry => wB entry.serialize) _ _ member
    simp only [length_part] at within
    omega

/-- **Round trip.** A block within the limits is read back. -/
theorem deserializeBlock_serialize (typed : b.Typed)
    (size : b.serialize.length ≤ Config.maxBlockBytes) (limits : b.Limits) :
    deserializeBlock b.serialize = .ok b := by
  obtain ⟨headerShort, txCount, txShort, entryCount, entryShort⟩ := Block.sizes size
  have header : parseHeader b.header.serialize = .ok b.header :=
    Header.reads.parse ⟨typed.header, limits.accValue⟩
  have tx : Reads (readPart (some maxTxBytes) "block: tx length exceeds input"
      Transaction.deserialize) (fun t => wB t.serialize) (· ∈ b.txs) := fun t member rest =>
    (readPart_ok (txShort t member)).mpr ⟨by simpa using limits.txBytes t member,
      Transaction.deserialize_serialize (limits.txs t member) (limits.txBytes t member), rfl⟩
  have entry : Reads (readPart none "block: PoR entry length exceeds input" parsePoREntry)
      (fun entry => wB entry.serialize) (· ∈ b.por) := fun entry member rest =>
    (readPart_ok (entryShort entry member)).mpr ⟨by simp,
      PoREntry.reads.parse ⟨typed.por entry member, limits.por entry member⟩, rfl⟩
  have run : Block.read (b.serialize ++ []) = .ok (b, []) := by
    rw [Block.serialize, List.append_assoc, List.append_assoc]
    refine (bind_run ((readPart_ok headerShort).mpr ⟨by simp, header, rfl⟩)).trans ?_
    refine (bind_run ((readParts_run txCount).trans
      (tx.times b.txs (fun _ member => member) _))).trans ?_
    refine (bind_run ((readParts_run entryCount).trans
      (entry.times b.por (fun _ member => member) _))).trans ?_
    exact (remaining_run _).trans (refuse_run (by simp) _ _)
  rw [List.append_nil] at run
  rw [deserializeBlock, if_neg (not_lt.mpr size), run]
  rfl

/-- A block that was read back is within the limits. -/
theorem deserializeBlock_limits (size : b.serialize.length ≤ Config.maxBlockBytes)
    (decoded : deserializeBlock b.serialize = .ok b) : b.Limits := by
  obtain ⟨headerShort, txCount, txShort, entryCount, entryShort⟩ := Block.sizes size
  rw [deserializeBlock, if_neg (not_lt.mpr size)] at decoded
  obtain ⟨⟨b', rest⟩, run, same⟩ : ∃ out, Block.read b.serialize = .ok out ∧ out.1 = b := by
    cases run : Block.read b.serialize with
    | error message => simp [run, Except.map] at decoded
    | ok out =>
      rw [run] at decoded
      exact ⟨out, rfl, Except.ok.inj decoded⟩
  have txStops : ∀ t ∈ b.txs, ∀ rest t' rest', readPart (some maxTxBytes)
      "block: tx length exceeds input" Transaction.deserialize (wB t.serialize ++ rest) =
        .ok (t', rest') → rest' = rest ∧ t.serialize.length ≤ maxTxBytes ∧
          Transaction.deserialize t.serialize = .ok t' := by
    intro t member rest t' rest' read
    obtain ⟨within, decoded, rfl⟩ := (readPart_ok (txShort t member)).mp read
    exact ⟨rfl, within _ rfl, decoded⟩
  have entryStops : ∀ entry ∈ b.por, ∀ rest entry' rest', readPart none
      "block: PoR entry length exceeds input" parsePoREntry (wB entry.serialize ++ rest) =
        .ok (entry', rest') → rest' = rest ∧ parsePoREntry entry.serialize = .ok entry' := by
    intro entry member rest entry' rest' read
    obtain ⟨-, decoded, rfl⟩ := (readPart_ok (entryShort entry member)).mp read
    exact ⟨rfl, decoded⟩
  rw [← List.append_nil b.serialize, Block.serialize, List.append_assoc, List.append_assoc] at run
  obtain ⟨header, after, headerRead, run⟩ := bind_ok.mp run
  obtain ⟨-, parsed, rfl⟩ := (readPart_ok headerShort).mp headerRead
  obtain ⟨txs, after, txsRead, run⟩ := bind_ok.mp run
  rw [readParts_run txCount] at txsRead
  obtain ⟨rfl, txsDecoded⟩ := times_ok txStops txsRead
  obtain ⟨por, after, porRead, run⟩ := bind_ok.mp run
  rw [readParts_run entryCount] at porRead
  obtain ⟨rfl, porDecoded⟩ := times_ok entryStops porRead
  obtain ⟨_, _, -, run⟩ := bind_ok.mp run
  obtain ⟨_, _, -, run⟩ := bind_ok.mp run
  obtain ⟨rfl, -⟩ := Prod.mk.inj (pure_ok.mp run)
  subst same
  have decodedTx := List.forall₂_same.mp txsDecoded
  have decodedEntry := List.forall₂_same.mp porDecoded
  exact ⟨Header.yields.parse parsed, fun t member => (decodedTx t member).1,
    fun t member => Transaction.deserialize_limits (decodedTx t member).2,
    fun entry member => PoREntry.yields.parse (decodedEntry entry member)⟩

/-- From the serialization of a block nothing but the block is decoded. -/
theorem deserializeBlock_faithful {b' : Block} (typed : b.Typed)
    (decoded : deserializeBlock b.serialize = .ok b') : b' = b := by
  rw [deserializeBlock] at decoded
  by_cases long : Config.maxBlockBytes < b.serialize.length
  · rw [if_pos long] at decoded
    exact nomatch decoded
  rw [if_neg long] at decoded
  obtain ⟨headerShort, txCount, txShort, entryCount, entryShort⟩ := Block.sizes (not_lt.mp long)
  obtain ⟨⟨read, rest⟩, run, rfl⟩ : ∃ out, Block.read b.serialize = .ok out ∧ out.1 = b' := by
    cases run : Block.read b.serialize with
    | error message => simp [run, Except.map] at decoded
    | ok out =>
      rw [run] at decoded
      exact ⟨out, rfl, Except.ok.inj decoded⟩
  have accValue : b.header.accValue.length < 256 ^ 4 := by
    refine lt_of_le_of_lt ?_ headerShort
    simp only [Header.serialize, Header.roots, List.length_append, length_part]
    omega
  have tx : Faithful (readPart (some maxTxBytes) "block: tx length exceeds input"
      Transaction.deserialize) (fun t => wB t.serialize) (· ∈ b.txs) := by
    rintro t member rest ⟨t', rest'⟩ read
    obtain ⟨-, decoded, rfl⟩ := (readPart_ok (txShort t member)).mp read
    obtain rfl : t' = t := Transaction.deserialize_faithful (txShort t member) decoded
    rfl
  have entry : Faithful (readPart none "block: PoR entry length exceeds input" parsePoREntry)
      (fun entry => wB entry.serialize) (· ∈ b.por) := by
    rintro entry member rest ⟨entry', rest'⟩ read
    obtain ⟨-, decoded, rfl⟩ := (readPart_ok (entryShort entry member)).mp read
    obtain rfl : entry' = entry :=
      PoREntry.faithful.parse ⟨typed.por entry member, entryShort entry member⟩ decoded
    rfl
  rw [← List.append_nil b.serialize, Block.serialize, List.append_assoc, List.append_assoc] at run
  obtain ⟨h, after, headerRead, run⟩ := bind_ok.mp run
  obtain ⟨-, parsed, rfl⟩ := (readPart_ok headerShort).mp headerRead
  obtain ⟨txs, after, txsRead, run⟩ := bind_ok.mp run
  rw [readParts_run txCount] at txsRead
  obtain ⟨rfl, rfl⟩ := Prod.mk.inj (tx.times (fun _ member => member) txsRead)
  obtain ⟨por, after, porRead, run⟩ := bind_ok.mp run
  rw [readParts_run entryCount] at porRead
  obtain ⟨rfl, rfl⟩ := Prod.mk.inj (entry.times (fun _ member => member) porRead)
  obtain ⟨_, _, -, run⟩ := bind_ok.mp run
  obtain ⟨_, _, -, run⟩ := bind_ok.mp run
  obtain ⟨rfl, -⟩ := Prod.mk.inj (pure_ok.mp run)
  obtain rfl : h = b.header := Header.faithful.parse ⟨typed.header, accValue⟩ parsed
  rfl

/-- **Decoding what was serialized.** A block that is not too large is read back exactly
when its parts are within the decoder's limits. -/
theorem deserializeBlock_serialize_iff (typed : b.Typed)
    (size : b.serialize.length ≤ Config.maxBlockBytes) :
    deserializeBlock b.serialize = .ok b ↔ b.Limits :=
  ⟨deserializeBlock_limits size, deserializeBlock_serialize typed size⟩

end Block

end Obscura
