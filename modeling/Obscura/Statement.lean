import Obscura.Decode
import Obscura.Testnet

/-! # What the core hash binds

The statement of a transaction: its fields other than proofs, signatures and the
conservation witnesses. The core of a transaction that was decoded is within the
limits of the decoder again, so its serialization has one reading, and the bytes
that the core hash is taken of determine the statement.
-/

namespace Obscura.Tx

open Wire

/-! ## Statements -/

/-- What a spend says apart from its proof. -/
def Input.statement (i : Input) : Bytes × Bytes × Bytes :=
  (i.outputRef, i.pseudoCommitment, i.keyImage)

/-- What an anonymous spend says apart from its proof. -/
def AnonInput.statement (i : AnonInput) : UInt64 × Bytes × Bytes :=
  (i.poolID, i.tag, i.pseudoCommitment)

/-- What a swap spend says apart from its signature. -/
def SwapIn.statement (i : SwapIn) : Bytes × Bool := (i.swapKey, i.isRefund)

/-- What a post-quantum spend says apart from its signature and paths. -/
def PQInput.statement (i : PQInput) : Bytes × Bytes × Bytes × Bytes × Bytes :=
  (i.outputRef, i.p, i.wotsRoot, i.nullifier, i.anchor)

/-- What a vault claim says apart from its signature. -/
def VaultIn.statement (i : VaultIn) : Bytes × UInt64 := (i.vaultKey, i.yield)

/-- What a nullifier spend says apart from its proof. -/
def ZKInput.statement (i : ZKInput) : Bytes × UInt64 × Bytes := (i.nullifier, i.amount, i.anchor)

/-- What a mint says apart from its proof. -/
def ZKOutput.statement (o : ZKOutput) : Bytes × UInt64 × Bytes × Bytes × UInt8 :=
  (o.leaf, o.amount, o.key, o.txPubKey, o.viewTag)

/-- What a confidential spend says apart from its proof. -/
def CZKSpend.statement (s : CZKSpend) :
    Bytes × Bytes × Bytes × UInt64 × Bytes × Bytes × UInt8 × Bytes :=
  (s.nullifier, s.anchor, s.leafOut, s.fee, s.key, s.txPubKey, s.viewTag, s.encAmount)

/-- Two transactions that differ in proofs and signatures only. -/
structure SameStatement (t t' : Transaction) : Prop where
  version : t.version = t'.version
  isCoinbase : t.isCoinbase = t'.isCoinbase
  inputs : t.inputs.map Input.statement = t'.inputs.map Input.statement
  anonInputs : t.anonInputs.map AnonInput.statement = t'.anonInputs.map AnonInput.statement
  swapInputs : t.swapInputs.map SwapIn.statement = t'.swapInputs.map SwapIn.statement
  swapOutputs : t.swapOutputs = t'.swapOutputs
  outputs : t.outputs = t'.outputs
  fee : t.fee = t'.fee
  height : t.height = t'.height
  minted : t.minted = t'.minted
  referrerTag : t.referrerTag = t'.referrerTag
  extraNonce : t.extraNonce = t'.extraNonce
  pqInputs : t.pqInputs.map PQInput.statement = t'.pqInputs.map PQInput.statement
  pqOutputs : t.pqOutputs = t'.pqOutputs
  vaultInputs : t.vaultInputs.map VaultIn.statement = t'.vaultInputs.map VaultIn.statement
  vaultOutputs : t.vaultOutputs = t'.vaultOutputs
  zkInputs : t.zkInputs.map ZKInput.statement = t'.zkInputs.map ZKInput.statement
  zkOutputs : t.zkOutputs.map ZKOutput.statement = t'.zkOutputs.map ZKOutput.statement
  czkSpends : t.czkSpends.map CZKSpend.statement = t'.czkSpends.map CZKSpend.statement

theorem statements_eq {α β : Type} {blank : α → α} {statement : α → β} {values values' : List α}
    (same : values.map blank = values'.map blank)
    (kept : ∀ value, statement (blank value) = statement value) :
    values.map statement = values'.map statement := by
  have through : ∀ list : List α, list.map statement = (list.map blank).map statement := by
    intro list
    rw [List.map_map]
    exact List.map_congr_left fun value _ => (kept value).symm
  rw [through values, same, ← through values']

/-- What the core holds determines the statement. -/
theorem Transaction.statement_of_core {t t' : Transaction} (same : t.core = t'.core) :
    SameStatement t t' := by
  simp only [Transaction.core, Transaction.mk.injEq] at same
  obtain ⟨version, isCoinbase, inputs, anonInputs, swapInputs, swapOutputs, outputs, fee, -,
    height, minted, referrerTag, extraNonce, pqInputs, pqOutputs, -, vaultInputs, vaultOutputs,
    zkInputs, zkOutputs, czkSpends⟩ := same
  constructor
  case version => exact version
  case isCoinbase => exact isCoinbase
  case inputs => exact statements_eq inputs fun _ => rfl
  case anonInputs => exact statements_eq anonInputs fun _ => rfl
  case swapInputs => exact statements_eq swapInputs fun _ => rfl
  case swapOutputs => exact swapOutputs
  case outputs => exact outputs
  case fee => exact fee
  case height => exact height
  case minted => exact minted
  case referrerTag => exact referrerTag
  case extraNonce => exact extraNonce
  case pqInputs => exact statements_eq pqInputs fun _ => rfl
  case pqOutputs => exact pqOutputs
  case vaultInputs => exact statements_eq vaultInputs fun _ => rfl
  case vaultOutputs => exact vaultOutputs
  case zkInputs => exact statements_eq zkInputs fun _ => rfl
  case zkOutputs => exact statements_eq zkOutputs fun _ => rfl
  case czkSpends => exact statements_eq czkSpends fun _ => rfl

/-! ## The core is within the limits -/

theorem Listed.blank {α : Type} {most : Nat} {fields : α → List Bytes} {blank : α → α}
    {values : List α} (listed : Listed most fields values)
    (kept : ∀ value, fields (blank value) ⊆ [] :: fields value) :
    Listed most fields (values.map blank) := by
  refine ⟨(List.length_map blank).trans_le listed.1, ?_⟩
  intro record member field present
  obtain ⟨value, listed', rfl⟩ := List.mem_map.mp member
  rcases List.mem_cons.mp (kept value present) with rfl | old
  · exact Nat.zero_le _
  · exact listed.2 value listed' field old

/-- A transaction's limits are those of its core. -/
theorem Transaction.Limits.core {t : Transaction} (limits : t.Limits) : t.core.Limits where
  inputs := limits.inputs.blank fun i => by simp [Input.fields]
  anonInputs := limits.anonInputs.blank fun i => by simp [AnonInput.fields]
  swapInputs := limits.swapInputs.blank fun i => by simp [SwapIn.fields]
  swapOutputs := limits.swapOutputs
  outputs := limits.outputs
  conservation := Nat.zero_le _
  referrerTag := limits.referrerTag
  pqInputs := limits.pqInputs.blank fun i => by simp [PQInput.fields]
  pqOutputs := limits.pqOutputs
  pqBlindDiff := Nat.zero_le _
  vaultInputs := limits.vaultInputs.blank fun i => by simp [VaultIn.fields]
  vaultOutputs := limits.vaultOutputs
  zkInputs := limits.zkInputs.blank fun i => by simp [ZKInput.fields]
  zkOutputs := limits.zkOutputs.blank fun o => by simp [ZKOutput.fields]
  czkSpends := limits.czkSpends.blank fun s => by simp [CZKSpend.fields]

theorem Transaction.Limits.serialize_injective {t t' : Transaction} (limits : t.Limits)
    (limits' : t'.Limits) (same : t.serialize = t'.serialize) : t = t' := by
  have read := Transaction.reads t limits []
  have read' := Transaction.reads t' limits' []
  rw [same, read'] at read
  exact (congrArg Prod.fst (Except.ok.inj read)).symm

/-! ## The hashed bytes -/

variable (V : Primitives)

/-- The bytes that the core hash is taken of. -/
def Transaction.corePreimage (t : Transaction) : Bytes :=
  ascii "OBX/tx/corehash/v1" ++ netID V ++ t.core.serialize

theorem Transaction.coreHash_eq (t : Transaction) : t.coreHash V = V.blake2b (t.corePreimage V) :=
  rfl

theorem Transaction.Limits.statement_of_corePreimage {t t' : Transaction} (limits : t.Limits)
    (limits' : t'.Limits) (same : t.corePreimage V = t'.corePreimage V) : SameStatement t t' := by
  have serialized : t.core.serialize = t'.core.serialize := List.append_cancel_left same
  exact Transaction.statement_of_core
    (limits.core.serialize_injective limits'.core serialized)

/-- **The core hash binds the statement.** Two decoded transactions whose core hashes are taken
of the same bytes have the same statement, and so have two with the same core hash, unless the
bytes are a collision of the hash: a proof whose context is the core hash of one transaction is
in no transaction with another statement bound to its context. -/
theorem coreHash_binds_statement {data data' : Bytes} {t t' : Transaction}
    (decoded : Transaction.deserialize data = .ok t)
    (decoded' : Transaction.deserialize data' = .ok t') :
    (t.corePreimage V = t'.corePreimage V → SameStatement t t') ∧
      (t.coreHash V = t'.coreHash V → SameStatement t t' ∨
        (t.corePreimage V ≠ t'.corePreimage V ∧
          V.blake2b (t.corePreimage V) = V.blake2b (t'.corePreimage V))) := by
  have limits := Transaction.deserialize_limits decoded
  have limits' := Transaction.deserialize_limits decoded'
  have binds := limits.statement_of_corePreimage V limits'
  refine ⟨binds, fun same => ?_⟩
  rw [Transaction.coreHash_eq, Transaction.coreHash_eq] at same
  by_cases bytes : t.corePreimage V = t'.corePreimage V
  · exact .inl (binds bytes)
  · exact .inr ⟨bytes, same⟩

/-- A spend of one output with an ownership proof. -/
def signedSpend (proof : Bytes) : Transaction :=
  { inputs := [{ outputRef := [1], ownershipProof := proof, pseudoCommitment := [2],
                 keyImage := [3] }]
    fee := 7 }

/-- Two spends that differ in their ownership proof only. -/
theorem signedSpend_same_statement : SameStatement (signedSpend [4]) (signedSpend [5, 6]) := by
  have decoded : Transaction.deserialize (signedSpend [4]).serialize = .ok (signedSpend [4]) := by
    decide +kernel
  have decoded' :
      Transaction.deserialize (signedSpend [5, 6]).serialize = .ok (signedSpend [5, 6]) := by
    decide +kernel
  have bound := (coreHash_binds_statement (Testnet.primitives Testnet.checksum) decoded decoded').2
  exact (bound rfl).resolve_right fun collision => collision.1 rfl

end Obscura.Tx
