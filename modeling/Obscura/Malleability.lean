import Obscura.Commit.Serialize
import Obscura.Decodable
import Obscura.ProofNet
import Obscura.Statement

/-! # Other encodings of the same proofs

The id of a transaction covers its proofs, its core hash does not. Validation looks at a proof
only after parsing, and the parsers of the Schnorr proofs, of the anonymous spends and of the
circuit proofs accept more than one encoding. A third party can replace one by another; the
only check that sees the difference is that of the fee against the size.
-/

namespace Obscura

open Wire Tx Checked Commit

/-! ## The same proofs -/

/-- Validation sees the proofs of package `commit` through their parsers. -/
structure Decoding (V : Primitives) where
  ownership : (outputRef ctx : Bytes) → SchnorrProof → Bool
  equality : (pseudo commitment ctx : Bytes) → SchnorrProof → Bool
  keyImage : (outputRef keyImage ctx : Bytes) → DLEQProof → Bool
  anonSpend : (ringKeys ringCommits : List Bytes) → (pseudo tag ctx : Bytes) →
    ParsedAnonSpendProof → Bool
  conservation : (pseudoIns outs : List Bytes) → (publicIn publicOut : UInt64) → (ctx : Bytes) →
    SchnorrProof → Bool
  verifyOwnership : ∀ ref proof ctx, V.verifyOwnership ref proof ctx =
    (parseSchnorrProof proof).toOption.any (ownership ref ctx)
  verifyValueEquality : ∀ pseudo commitment proof ctx,
    V.verifyValueEquality pseudo commitment proof ctx =
      (parseSchnorrProof proof).toOption.any (equality pseudo commitment ctx)
  verifyKeyImage : ∀ ref image proof ctx, V.verifyKeyImage ref image proof ctx =
    (parseDLEQ proof).toOption.any (keyImage ref image ctx)
  verifyAnonSpendBytes : ∀ keys commits pseudo tag proof ctx,
    V.verifyAnonSpendBytes keys commits pseudo tag proof ctx =
      (parseAnonSpendProof proof).toOption.any (anonSpend keys commits pseudo tag ctx)
  verifyConservationGen : ∀ ins outs publicIn publicOut proof ctx,
    V.verifyConservationGen ins outs publicIn publicOut proof ctx =
      (parseSchnorrProof proof).toOption.any (conservation ins outs publicIn publicOut ctx)
  conservationWidth : ∀ ins outs publicIn publicOut ctx proof,
    conservation ins outs publicIn publicOut ctx proof = true →
      proof.R.length = 32 ∧ proof.S.length = 32

section Encodings

variable (V : Primitives)

/-- What validation sees of the proofs of a transparent input. -/
def Tx.Input.decoded (i : Input) :
    Option SchnorrProof × Option SchnorrProof × Option DLEQProof :=
  ((parseSchnorrProof i.ownershipProof).toOption, (parseSchnorrProof i.equalityProof).toOption,
    (parseDLEQ i.keyImageProof).toOption)

/-- What validation sees of the proof of an anonymous input. -/
def Tx.AnonInput.decoded (i : AnonInput) : Option ParsedAnonSpendProof :=
  (parseAnonSpendProof i.proof).toOption

/-- The transactions differ at most in how their proofs and signatures are encoded. -/
structure Recoded (t t' : Transaction) : Prop where
  limits : t.Limits
  limits' : t'.Limits
  preimage : t.corePreimage V = t'.corePreimage V
  inputs : t.inputs.map Input.decoded = t'.inputs.map Input.decoded
  anonInputs : t.anonInputs.map AnonInput.decoded = t'.anonInputs.map AnonInput.decoded
  swapInputs : t.swapInputs.map (fun i => V.parseFullSig i.sig) =
    t'.swapInputs.map fun i => V.parseFullSig i.sig
  vaultInputs : t.vaultInputs.map (fun i => V.parseFullSig i.sig) =
    t'.vaultInputs.map fun i => V.parseFullSig i.sig
  zkInputs : t.zkInputs.map (fun i => V.unmarshalProof i.proof) =
    t'.zkInputs.map fun i => V.unmarshalProof i.proof
  zkOutputs : t.zkOutputs.map (fun o => V.unmarshalProof o.mintProof) =
    t'.zkOutputs.map fun o => V.unmarshalProof o.mintProof
  czkSpends : t.czkSpends.map (fun s => V.unmarshalProof s.proof) =
    t'.czkSpends.map fun s => V.unmarshalProof s.proof
  conservation : (parseSchnorrProof t.conservation).toOption =
    (parseSchnorrProof t'.conservation).toOption
  pqBlindDiff : t.pqBlindDiff = t'.pqBlindDiff

end Encodings

/-- The fee pays for a size. -/
def paysFor (fee : UInt64) (size : Nat) : Bool :=
  let (minFee, overflow) := mulU64 (UInt64.ofNat size) Config.minFeePerByte
  !overflow && minFee ≤ fee

/-! ## Sizes -/

/-- What a fee of a size must be. -/
theorem paysFor_iff {fee : UInt64} {size : Nat} (word : size < 2 ^ 64) :
    paysFor fee size = true ↔ size * Config.minFeePerByte.toNat ≤ fee.toNat := by
  have rate : Config.minFeePerByte.toNat = 1000 := by decide
  have same : (UInt64.ofNat size).toNat = size := UInt64.toNat_ofNat_of_lt' word
  have upper := fee.toNat_lt
  unfold paysFor mulU64
  rw [rate]
  split_ifs with zero
  · rcases zero with zero | zero
    · have none : size = 0 := by
        rw [zero] at same
        exact same.symm
      simp [none, UInt64.le_iff_toNat_le]
    · exact absurd zero (by decide)
  · have positive : 0 < size := by
      refine Nat.pos_of_ne_zero fun none => zero (Or.inl ?_)
      rw [none]
      rfl
    have product : (UInt64.ofNat size * Config.minFeePerByte).toNat = size * 1000 % 2 ^ 64 := by
      rw [UInt64.toNat_mul, same, rate]
    have quotient : (UInt64.ofNat size * Config.minFeePerByte / UInt64.ofNat size =
        Config.minFeePerByte) ↔ size * 1000 % 2 ^ 64 / size = 1000 := by
      rw [← UInt64.toNat_inj, UInt64.toNat_div, product, same, rate]
    simp only [Bool.and_eq_true, Bool.not_eq_true', bne_eq_false_iff_eq, decide_eq_true_eq,
      UInt64.le_iff_toNat_le, quotient, product]
    by_cases fits : size * 1000 < 2 ^ 64
    · rw [Nat.mod_eq_of_lt fits, Nat.mul_div_cancel_left _ positive]
      exact and_iff_right rfl
    · have wraps : size * 1000 % 2 ^ 64 / size < 1000 := by
        rw [Nat.div_lt_iff_lt_mul positive, Nat.mul_comm 1000]
        exact (Nat.mod_lt _ (Nat.two_pow_pos 64)).trans_le (not_lt.mp fits)
      constructor
      · exact fun ⟨whole, _⟩ => absurd whole wraps.ne
      · intro pays
        omega

theorem paysFor_mono {fee : UInt64} {size larger : Nat} (le : size ≤ larger)
    (word : larger < 2 ^ 64) (pays : paysFor fee larger = true) : paysFor fee size = true := by
  rw [paysFor_iff word] at pays
  rw [paysFor_iff (le.trans_lt word)]
  exact (Nat.mul_le_mul_right _ le).trans pays

/-- A record with few fields is small. -/
theorem record_le {α : Type} {fields : α → List Bytes} {value : α} {size : Nat}
    (fits : Fits fields value) (few : (fields value).length ≤ 16)
    (counted : size ≤ 64 + ((fields value).map fun field => 4 + field.length).sum) :
    size ≤ 2 ^ 21 := by
  have each : ((fields value).map fun field => 4 + field.length).sum ≤
      (fields value).length * (4 + 2 ^ 16) := by
    refine (List.sum_le_card_nsmul _ (4 + 2 ^ 16) fun width member => ?_).trans_eq ?_
    · obtain ⟨field, listed, rfl⟩ := List.mem_map.mp member
      exact Nat.add_le_add_left (fits field listed) 4
    · rw [List.length_map]
      rfl
  have bound := Nat.mul_le_mul_right (4 + 2 ^ 16) few
  omega

/-- The bytes of a list, from its fields. -/
theorem putList_le {α : Type} {most : Nat} {fields : α → List Bytes} (encode : α → Bytes)
    {values : List α} (listed : Listed most fields values) (few : most ≤ 1024)
    (each : ∀ value, (fields value).length ≤ 16 ∧ (encode value).length ≤
      64 + ((fields value).map fun field => 4 + field.length).sum) :
    (putList encode values).length ≤ 2 ^ 32 := by
  have items : (values.flatMap encode).length ≤ 2 ^ 21 * values.length :=
    Testnet.length_flatMap_le fun value member =>
      record_le (listed.2 value member) (each value).1 (each value).2
  have count := Nat.mul_le_mul_left (2 ^ 21) (listed.1.trans few)
  rw [putList, List.length_append, putU64, length_bigEndian]
  omega

/-- A transaction that can be decoded is far smaller than a word counts. -/
theorem Tx.Transaction.Limits.size {t : Transaction} (limits : t.Limits) :
    t.serialize.length + 1 < 2 ^ 64 := by
  have inputs := putList_le Input.serialize limits.inputs (by decide) fun value => by
    simp [Input.serialize, Input.fields]
  have anonInputs := putList_le AnonInput.serialize limits.anonInputs (by decide) fun value => by
    simp [AnonInput.serialize, AnonInput.fields]
  have swapInputs := putList_le SwapIn.serialize limits.swapInputs (by decide) fun value => by
    simp [SwapIn.serialize, SwapIn.fields, wBool]
    omega
  have swapOutputs := putList_le SwapOut.serialize limits.swapOutputs (by decide) fun value => by
    simp [SwapOut.serialize, SwapOut.fields]
    omega
  have outputs := putList_le Output.serialize limits.outputs (by decide) fun value => by
    simp [Output.serialize, Output.fields]
    omega
  have pqInputs := putList_le PQInput.serialize limits.pqInputs (by decide) fun value => by
    simp [PQInput.serialize, PQInput.fields]
  have pqOutputs := putList_le PQOutput.serialize limits.pqOutputs (by decide) fun value => by
    simp [PQOutput.serialize, PQOutput.fields]
    omega
  have vaultInputs := putList_le VaultIn.serialize limits.vaultInputs (by decide) fun value => by
    simp [VaultIn.serialize, VaultIn.fields]
    omega
  have vaultOutputs := putList_le VaultOut.serialize limits.vaultOutputs (by decide) fun value => by
    simp [VaultOut.serialize, VaultOut.fields]
    omega
  have zkInputs := putList_le ZKInput.serialize limits.zkInputs (by decide) fun value => by
    simp [ZKInput.serialize, ZKInput.fields]
    omega
  have zkOutputs := putList_le ZKOutput.serialize limits.zkOutputs (by decide) fun value => by
    simp [ZKOutput.serialize, ZKOutput.fields]
    omega
  have czkSpends := putList_le CZKSpend.serialize limits.czkSpends (by decide) fun value => by
    simp [CZKSpend.serialize, CZKSpend.fields]
    omega
  obtain ⟨conservation, referrerTag, pqBlindDiff⟩ :=
    (⟨limits.conservation, limits.referrerTag, limits.pqBlindDiff⟩ :
      Bounded t.conservation ∧ Bounded t.referrerTag ∧ Bounded t.pqBlindDiff)
  unfold Bounded maxFieldBytes at conservation referrerTag pqBlindDiff
  unfold Transaction.serialize
  simp only [List.length_append, length_bigEndian, Testnet.length_wB, Testnet.length_wU64, wBool,
    List.length_singleton]
  omega

/-! ## They are judged alike -/

section Alike

variable {V : Primitives} (decoding : Decoding V) {L : Ledger} {height : Nat} {ctx : Hash}

theorem foldlM_congr_key {σ α β : Type} {body : σ → α → Check σ} {key : α → β}
    (alike : ∀ state a b, key a = key b → body state a = body state b) {values values' : List α}
    (same : values.map key = values'.map key) (state : σ) :
    values.foldlM body state = values'.foldlM body state := by
  induction values generalizing values' state with
  | nil =>
    obtain rfl := List.map_eq_nil_iff.mp same.symm
    rfl
  | cons value values ih =>
    cases values' with
    | nil => exact nomatch same
    | cons value' values' =>
      obtain ⟨head, tail⟩ := List.cons.inj same
      rw [List.foldlM_cons, List.foldlM_cons, alike state value value' head]
      exact bind_congr fun next => ih tail next

theorem map_pair {α β γ : Type} {first : α → β} {second : α → γ} {values values' : List α}
    (left : values.map first = values'.map first)
    (right : values.map second = values'.map second) :
    values.map (fun value => (first value, second value)) =
      values'.map fun value => (first value, second value) := by
  have zipped : ∀ list : List α, list.map (fun value => (first value, second value)) =
      (list.map first).zip (list.map second) := fun _ => List.zip_map'.symm
  rw [zipped, zipped, left, right]

include decoding in
theorem checkInput_congr (seen : List Bytes) {i i' : Input}
    (same : (i.statement, i.decoded) = (i'.statement, i'.decoded)) :
    checkInput V L false height ctx seen i = checkInput V L false height ctx seen i' := by
  obtain ⟨ref, ownership, pseudo, equality, image, keyImage⟩ := i
  obtain ⟨ref', ownership', pseudo', equality', image', keyImage'⟩ := i'
  simp only [Input.statement, Input.decoded, Prod.mk.injEq] at same
  obtain ⟨⟨rfl, rfl, rfl⟩, ownershipEq, equalityEq, imageEq⟩ := same
  simp only [checkInput, decoding.verifyOwnership, decoding.verifyValueEquality,
    decoding.verifyKeyImage, ownershipEq, equalityEq, imageEq]

include decoding in
theorem checkAnonInput_congr (seen : List Bytes) {i i' : AnonInput}
    (same : (i.statement, i.decoded) = (i'.statement, i'.decoded)) :
    checkAnonInput V L false height ctx seen i = checkAnonInput V L false height ctx seen i' := by
  obtain ⟨pool, tag, pseudo, proof⟩ := i
  obtain ⟨pool', tag', pseudo', proof'⟩ := i'
  simp only [AnonInput.statement, AnonInput.decoded, Prod.mk.injEq] at same
  obtain ⟨⟨rfl, rfl, rfl⟩, proofEq⟩ := same
  simp only [checkAnonInput, decoding.verifyAnonSpendBytes, proofEq]

theorem checkSwapInput_congr (state : List Bytes × UInt64) {i i' : SwapIn}
    (same : (i.statement, V.parseFullSig i.sig) = (i'.statement, V.parseFullSig i'.sig)) :
    checkSwapInput V L false height ctx state i = checkSwapInput V L false height ctx state i' := by
  simp only [SwapIn.statement, Prod.mk.injEq] at same
  obtain ⟨⟨key, refund⟩, sig⟩ := same
  simp only [checkSwapInput, key, refund, sig]

theorem checkVaultInput_congr (state : List Bytes × UInt64) {i i' : VaultIn}
    (same : (i.statement, V.parseFullSig i.sig) = (i'.statement, V.parseFullSig i'.sig)) :
    checkVaultInput V L false height ctx state i =
      checkVaultInput V L false height ctx state i' := by
  simp only [VaultIn.statement, Prod.mk.injEq] at same
  obtain ⟨⟨key, yield⟩, sig⟩ := same
  simp only [checkVaultInput, key, yield, sig]

theorem checkZKInput_congr (state : List Bytes × UInt64) {i i' : ZKInput}
    (same : (i.statement, V.unmarshalProof i.proof) = (i'.statement, V.unmarshalProof i'.proof)) :
    checkZKInput V L false ctx state i = checkZKInput V L false ctx state i' := by
  simp only [ZKInput.statement, Prod.mk.injEq] at same
  obtain ⟨⟨nullifier, amount, anchor⟩, proof⟩ := same
  simp only [checkZKInput, nullifier, amount, anchor, proof]

theorem checkZKOutput_congr (publicOut : UInt64) {o o' : ZKOutput}
    (same : (o.statement, V.unmarshalProof o.mintProof) =
      (o'.statement, V.unmarshalProof o'.mintProof)) :
    checkZKOutput V false ctx publicOut o = checkZKOutput V false ctx publicOut o' := by
  simp only [ZKOutput.statement, Prod.mk.injEq] at same
  obtain ⟨⟨leaf, amount, -⟩, proof⟩ := same
  simp only [checkZKOutput, leaf, amount, proof]

theorem checkCZKSpend_congr (state : List Bytes × UInt64) {s s' : CZKSpend}
    (same : (s.statement, V.unmarshalProof s.proof) = (s'.statement, V.unmarshalProof s'.proof)) :
    checkCZKSpend V L false ctx state s = checkCZKSpend V L false ctx state s' := by
  simp only [CZKSpend.statement, Prod.mk.injEq] at same
  obtain ⟨⟨nullifier, anchor, leafOut, fee, -⟩, proof⟩ := same
  simp only [checkCZKSpend, nullifier, anchor, leafOut, fee, proof]

/-! ## Transactions -/

variable {t t' : Transaction} (recoded : Recoded V t t')

include recoded

theorem Recoded.statement : SameStatement t t' :=
  recoded.limits.statement_of_corePreimage V recoded.limits' recoded.preimage

omit recoded in
theorem Recoded.refl (limits : t.Limits) : Recoded V t t := by
  constructor <;> first | exact limits | rfl

theorem Recoded.coreHash : t.coreHash V = t'.coreHash V := by
  rw [Transaction.coreHash_eq, Transaction.coreHash_eq, recoded.preimage]

include decoding in
/-- The value legs do not tell the encodings apart. -/
theorem Recoded.validateLegs (seen : Seen) :
    validateLegs V L false t height seen = validateLegs V L false t' height seen := by
  have same := recoded.statement
  have lengths {α β : Type} {f : α → β} {values values' : List α}
      (same : values.map f = values'.map f) : values.length = values'.length := by
    simpa using congrArg List.length same
  have inputs := foldlM_congr_key (@checkInput_congr V decoding L height (t'.coreHash V))
    (map_pair same.inputs recoded.inputs)
  have anons := foldlM_congr_key (@checkAnonInput_congr V decoding L height (t'.coreHash V))
    (map_pair same.anonInputs recoded.anonInputs)
  have swaps := foldlM_congr_key (@checkSwapInput_congr V L height (t'.coreHash V))
    (map_pair same.swapInputs recoded.swapInputs)
  have vaults := foldlM_congr_key (@checkVaultInput_congr V L height (t'.coreHash V))
    (map_pair same.vaultInputs recoded.vaultInputs)
  have zks := foldlM_congr_key (@checkZKInput_congr V L (t'.coreHash V))
    (map_pair same.zkInputs recoded.zkInputs)
  have mints := foldlM_congr_key (@checkZKOutput_congr V (t'.coreHash V))
    (map_pair same.zkOutputs recoded.zkOutputs)
  have czks := foldlM_congr_key (@checkCZKSpend_congr V L (t'.coreHash V))
    (map_pair same.czkSpends recoded.czkSpends)
  have pseudo : pseudoIns t = pseudoIns t' := by
    have inputs := congrArg (List.map fun statement => statement.2.1) same.inputs
    have anons := congrArg (List.map fun statement => statement.2.2) same.anonInputs
    rw [List.map_map, List.map_map] at inputs anons
    rw [pseudoIns, pseudoIns]
    exact congrArg₂ _ inputs anons
  unfold Obscura.validateLegs validateZKInputsLocked validateZKOutputsLocked validateCZKSpendsLocked
  simp only [recoded.coreHash, inputs, anons, swaps, vaults, zks, mints, czks, pseudo,
    same.swapOutputs, same.vaultOutputs, same.outputs, same.fee, lengths same.zkInputs,
    lengths same.zkOutputs, lengths same.czkSpends, decoding.verifyConservationGen,
    recoded.conservation]

/-- Nor do the structural checks but for the size. -/
theorem Recoded.checkShape (accepted : checkShape t = .ok ()) :
    Obscura.checkShape t' = .ok () ↔ paysFor t.fee t'.serialize.length = true := by
  have same := recoded.statement
  have lengths {α β : Type} {f : α → β} {values values' : List α}
      (same : values.map f = values'.map f) : values.length = values'.length := by
    simpa using congrArg List.length same
  have none : t'.pqInputs = [] ↔ t.pqInputs = [] := by
    rw [← List.length_eq_zero_iff, ← lengths same.pqInputs, List.length_eq_zero_iff]
  unfold Obscura.checkShape at accepted ⊢
  simp only [bind_ok, reject_ok, exists_const] at accepted ⊢
  obtain ⟨noPQ, some, outs, counts, coinbase, -⟩ := accepted
  simp only [lengths same.inputs, lengths same.anonInputs, lengths same.swapInputs,
    lengths same.vaultInputs, lengths same.zkInputs, lengths same.czkSpends,
    lengths same.zkOutputs, same.outputs, same.swapOutputs, same.vaultOutputs, same.height,
    same.minted, same.referrerTag, same.extraNonce, same.pqOutputs, recoded.pqBlindDiff, ← none,
    ne_eq] at noPQ some outs counts coinbase
  rw [paysFor, same.fee]
  simp only [Bool.and_eq_true, Bool.not_eq_true', decide_eq_true_eq, ← UInt64.not_lt]
  constructor
  · rintro ⟨-, -, -, -, -, fits, pays⟩
    exact ⟨Bool.eq_false_iff.mpr fits, pays⟩
  · rintro ⟨fits, pays⟩
    exact ⟨noPQ, some, outs, counts, coinbase, Bool.eq_false_iff.mp fits, pays⟩

include decoding in
theorem Recoded.accepted_iff {seen : Seen} (noPQ : L.pqUtxo = ∅)
    (accepted : (validateTxLocked V L false t height seen).isOk = true) :
    (validateTxLocked V L false t' height seen).isOk = true ↔
      paysFor t.fee t'.serialize.length = true := by
  have same := recoded.statement
  have none : t'.pqInputs = [] ↔ t.pqInputs = [] := by
    have lengths : t.pqInputs.length = t'.pqInputs.length := by
      simpa using congrArg List.length same.pqInputs
    rw [← List.length_eq_zero_iff, ← lengths, List.length_eq_zero_iff]
  obtain ⟨⟨primes, next⟩, result⟩ := isOk_iff.mp accepted
  obtain ⟨notCoinbase, classical, noInputs, noOutputs, -⟩ := validateTx_classical noPQ result
  have classical' : hasPQ t' = false := by
    rw [hasPQ, none.mpr noInputs, ← same.pqOutputs, noOutputs]
    rfl
  unfold validateTxLocked at result
  simp only [bind_ok, reject_ok, exists_const, classical, Bool.false_eq_true, ↓reduceIte]
    at result
  obtain ⟨-, _, shape, legs⟩ := result
  rw [recoded.validateLegs decoding] at legs
  rw [← recoded.checkShape shape, isOk_iff]
  unfold validateTxLocked
  simp only [bind_ok, reject_ok, exists_const, classical', ← same.isCoinbase, notCoinbase,
    Bool.false_eq_true, ↓reduceIte, not_false_eq_true, true_and]
  constructor
  · rintro ⟨_, _, shape', -⟩
    exact shape'
  · exact fun shape' => ⟨_, (), shape', legs⟩

end Alike

section Chain

variable {V : Primitives}

theorem Recoded.tail {t : Transaction} (limits : t.Limits) {proof : SchnorrProof}
    (parsed : parseSchnorrProof t.conservation = .ok proof) {other : Bytes}
    (bounded : Bounded other) (same : parseSchnorrProof other = .ok proof) :
    Recoded V t { t with conservation := other } := by
  constructor
  case limits => exact limits
  case limits' => exact { limits with conservation := bounded }
  case conservation => rw [parsed, same]
  all_goals rfl

theorem size_conservation (t : Transaction) (other : Bytes) :
    ({ t with conservation := other } : Transaction).serialize.length + t.conservation.length =
      t.serialize.length + other.length := by
  unfold Transaction.serialize
  simp only [List.length_append, Testnet.length_wB]
  omega

theorem size_padded (t : Transaction) :
    ({ t with conservation := t.conservation ++ [0] } : Transaction).serialize.length =
      t.serialize.length + 1 := by
  have sizes := size_conservation t (t.conservation ++ [0])
  rw [List.length_append, List.length_singleton] at sizes
  omega

theorem conservation_split (decoding : Decoding V) {L : Ledger} {t : Transaction} {height : Nat}
    {seen : Seen} (noPQ : L.pqUtxo = ∅)
    (accepted : (validateTxLocked V L false t height seen).isOk = true) :
    ∃ proof rest, parseSchnorrProof t.conservation = .ok proof ∧
      parseSchnorrProof proof.serialize = .ok proof ∧ proof.serialize.length = 72 ∧
      t.conservation = proof.serialize ++ rest := by
  obtain ⟨⟨primes, next⟩, result⟩ := isOk_iff.mp accepted
  obtain ⟨-, -, -, -, legs⟩ := validateTx_classical noPQ result
  obtain ⟨publicIn, publicOut, -, -, verified⟩ := legs.conservation rfl
  rw [decoding.verifyConservationGen, Option.any_eq_true] at verified
  obtain ⟨proof, found, holds⟩ := verified
  obtain ⟨widthR, widthS⟩ := decoding.conservationWidth _ _ _ _ _ _ holds
  have parsed : parseSchnorrProof t.conservation = .ok proof := by
    cases outcome : parseSchnorrProof t.conservation with
    | error message => rw [outcome] at found; exact nomatch found
    | ok value =>
      rw [outcome] at found
      rw [Option.some.inj found]
  obtain ⟨whole, rest, split⟩ := parseSchnorrProof_split parsed
  refine ⟨proof, rest, parsed, whole, ?_, split⟩
  simp [SchnorrProof.serialize, wBytes, widthR, widthS]

/-- **Third-party malleability.** Where no encoding of the same proofs collides with the id, an
accepted transaction has no other accepted encoding with another id if and only if its fee does
not pay for one more byte and its proofs have no other encoding of at most its size. -/
theorem unmalleable_iff (decoding : Decoding V) {chain : List Block}
    (chained : Chained V (Admitted V) chain) {t : Transaction} {height : Nat} {seen : Seen}
    (limits : t.Limits)
    (preimage : ∀ t', Recoded V t t' → t'.hash V = t.hash V → t'.serialize = t.serialize)
    (accepted : (validateTxLocked V (replay V chain) false t height seen).isOk = true) :
    (∀ t', Recoded V t t' → t'.hash V ≠ t.hash V →
      (validateTxLocked V (replay V chain) false t' height seen).isOk = false) ↔
    paysFor t.fee (t.serialize.length + 1) = false ∧
      ∀ t', Recoded V t t' → t'.serialize.length ≤ t.serialize.length →
        t'.serialize = t.serialize := by
  have noPQ := chained.regular.noPQOutput
  have size := limits.size
  have id {t' : Transaction} (recoded : Recoded V t t')
      (differs : t'.serialize.length ≠ t.serialize.length) : t'.hash V ≠ t.hash V :=
    fun same => differs (congrArg List.length (preimage _ recoded same))
  have own : paysFor t.fee t.serialize.length = true :=
    ((Recoded.refl limits).accepted_iff decoding noPQ accepted).mp accepted
  constructor
  · intro unmalleable
    have smaller : ∀ t', Recoded V t t' → t'.serialize.length ≤ t.serialize.length →
        t'.serialize = t.serialize := by
      intro t' recoded fits
      by_contra differs
      have rejected := unmalleable t' recoded fun same => differs (preimage _ recoded same)
      rw [(recoded.accepted_iff decoding noPQ accepted).mpr
        (paysFor_mono fits (by omega) own)] at rejected
      exact Bool.true_eq_false_eq_False rejected
    refine ⟨?_, smaller⟩
    obtain ⟨proof, rest, parsed, whole, width, split⟩ := conservation_split decoding noPQ accepted
    -- No byte follows the proof, for it could be dropped.
    have exact : t.conservation = proof.serialize := by
      have dropped := Recoded.tail (V := V) limits parsed (by rw [Bounded, width]; decide) whole
      have sizes := size_conservation t proof.serialize
      have shorter : proof.serialize.length ≤ t.conservation.length := by
        rw [split, List.length_append]
        omega
      have same := congrArg List.length (smaller _ dropped (by omega))
      have none : rest = [] := by
        refine List.length_eq_zero_iff.mp ?_
        have total := congrArg List.length split
        rw [List.length_append] at total
        omega
      rw [split, none, List.append_nil]
    have longer : Recoded V t { t with conservation := t.conservation ++ [0] } :=
      Recoded.tail limits parsed (by rw [Bounded, List.length_append, exact, width]; decide)
        (parseSchnorrProof_append parsed [0])
    have rejected := unmalleable _ longer (id longer (by rw [size_padded]; omega))
    rw [← Bool.not_eq_true, longer.accepted_iff decoding noPQ accepted, size_padded,
      Bool.not_eq_true] at rejected
    exact rejected
  · rintro ⟨unpaid, only⟩ t' recoded differs
    rw [← Bool.not_eq_true, recoded.accepted_iff decoding noPQ accepted]
    intro pays
    have larger : t.serialize.length + 1 ≤ t'.serialize.length := by
      by_contra small
      refine differs ?_
      rw [Transaction.hash, Transaction.hash, only t' recoded (by omega)]
    have word := recoded.limits'.size
    rw [paysFor_mono larger (by omega) pays] at unpaid
    exact Bool.true_eq_false_eq_False unpaid

end Chain

/-! ## A padded proof -/

namespace Padded

open Testnet ProofNet

/-- Two words of the input and its length as a hash of the right width. -/
def weigh (bytes : Bytes) : Hash :=
  (List.replicate 8 0 ++ (bytes.drop 2).take 8 ++ (bytes.drop 58).take 8 ++
    putU64 bytes.length ++ List.replicate 32 0).take 32

theorem length_weigh (bytes : Bytes) : (weigh bytes).length = 32 := by
  simp only [weigh, List.length_take, List.length_append, List.length_replicate]
  omega

/-- The commitment to the reward of the first block. -/
def minted (hash : Bytes → Hash) : Bytes :=
  wU64 (reward (genesisLedger (primitives hash))) ++ bigEndian 24 0

/-- The coin of height 1 is spent with proofs that name what they prove and what they sign. -/
def signed (hash : Bytes → Hash) : Transaction :=
  let unsigned : Transaction :=
    { inputs := [{
        outputRef := payoutKey 1
        pseudoCommitment := minted hash
        keyImage := payoutKey 1 }]
      outputs := [{
        oneTimeKey := payoutKey 1_000
        txPubKey := zeroHash
        commitment :=
          wU64 (reward (genesisLedger (primitives hash)) - 1_000_000) ++ bigEndian 24 0 }]
      fee := 1_000_000 }
  let ctx := unsigned.coreHash (primitives hash)
  { unsigned with
    inputs := unsigned.inputs.map fun input =>
      { input with
        ownershipProof := SchnorrProof.serialize ⟨input.outputRef, ctx⟩
        equalityProof := SchnorrProof.serialize ⟨minted hash, ctx⟩
        keyImageProof := zeroHash ++ zeroHash }
    conservation := SchnorrProof.serialize ⟨zeroHash, ctx⟩ }

/-- The serialization of the spend has a hash of its own. -/
def marked (bytes : Bytes) : Hash :=
  if bytes = (signed weigh).serialize then 1 :: List.replicate 31 0 else weigh bytes

theorem length_marked (bytes : Bytes) : (marked bytes).length = 32 := by
  unfold marked
  split_ifs
  · rfl
  · exact length_weigh bytes

/-- A network whose verifiers look at parsed proofs. -/
def net : Primitives :=
  patched (primitives marked)
    { primitives marked with
      verifyOwnership := fun ref proof ctx =>
        (parseSchnorrProof proof).toOption.any fun pf => pf.R == ref && pf.S == ctx
      verifyValueEquality := fun pseudo commitment proof ctx =>
        (parseSchnorrProof proof).toOption.any fun pf =>
          pseudo.take 8 == commitment.take 8 && pf.R == commitment && pf.S == ctx
      verifyKeyImage := fun ref image proof _ =>
        (parseDLEQ proof).toOption.any fun _ => image == ref
      verifyAnonSpendBytes := fun _ _ _ _ proof _ =>
        (parseAnonSpendProof proof).toOption.any fun _ => false
      verifyConservationGen := fun ins outs publicIn publicOut proof ctx =>
        (parseSchnorrProof proof).toOption.any fun pf =>
          pf.R == zeroHash && pf.S == ctx && pf.S.length == 32 &&
            (ins.map amountOf).sum + publicIn.toNat == (outs.map amountOf).sum + publicOut.toNat }

/-- The verifiers of the network through the parsers. -/
def decoding : Decoding net where
  ownership ref ctx pf := pf.R == ref && pf.S == ctx
  equality pseudo commitment ctx pf :=
    pseudo.take 8 == commitment.take 8 && pf.R == commitment && pf.S == ctx
  keyImage ref image _ _ := image == ref
  anonSpend _ _ _ _ _ _ := false
  conservation ins outs publicIn publicOut ctx pf :=
    pf.R == zeroHash && pf.S == ctx && pf.S.length == 32 &&
      (ins.map amountOf).sum + publicIn.toNat == (outs.map amountOf).sum + publicOut.toNat
  verifyOwnership _ _ _ := rfl
  verifyValueEquality _ _ _ _ := rfl
  verifyKeyImage _ _ _ _ := rfl
  verifyAnonSpendBytes _ _ _ _ _ _ := rfl
  verifyConservationGen _ _ _ _ _ _ := rfl
  conservationWidth := by
    intro ins outs publicIn publicOut ctx proof holds
    simp only [Bool.and_eq_true, beq_iff_eq] at holds
    obtain ⟨⟨⟨zero, -⟩, width⟩, -⟩ := holds
    rw [zero]
    exact ⟨rfl, width⟩

/-- Sixty blocks without transactions. -/
def chain : List Block := mined marked (List.replicate 60 0)

theorem mined_bare (nonces : List Nat) : Bare (mined marked nonces) := by
  induction nonces with
  | nil => exact fun b member => absurd member List.not_mem_nil
  | cons nonce nonces ih =>
    intro b member
    rcases List.mem_cons.mp member with rfl | older
    · exact ⟨_, rfl, rfl⟩
    · exact ih b older

theorem mined_chained (nonces : List Nat) (small : nonces.length < 2 ^ 64) :
    Chained net (Verified net) (mined marked nonces) := by
  have zeros : ∀ depth ≤ Config.zkDepth,
      zeroRoot net depth = zeroRoot (primitives marked) depth := fun _ _ => rfl
  exact (chained_patched zeros (mined_bare nonces)
    (idle_mined length_marked nonces small).chained).1

theorem chained : Chained net (Verified net) chain := mined_chained _ (by decide)

/-- The spend that is signed under the marked hash. -/
def spend : Transaction := signed marked

theorem spend_eq : spend = signed weigh := by decide +kernel

theorem spend_accepted :
    (validateTxLocked net (replay net chain) false spend 61 ⟨[], []⟩).isOk = true := by
  set_option maxRecDepth 30000 in
  decide

theorem net_blake2b (bytes : Bytes) : net.blake2b bytes = marked bytes := rfl

theorem marked_flag {bytes : Bytes} (flag : marked bytes = 1 :: List.replicate 31 0) :
    bytes = (signed weigh).serialize := by
  by_contra other
  rw [marked, if_neg other] at flag
  exact absurd (congrArg List.head? flag) (by simp [weigh, List.replicate_succ])

theorem spend_preimage (bytes : Bytes) (same : net.blake2b bytes = spend.hash net) :
    bytes = spend.serialize := by
  rw [Transaction.hash, net_blake2b, net_blake2b, spend_eq] at same
  rw [spend_eq]
  exact marked_flag (same.trans (if_pos rfl))

theorem spend_limits : spend.Limits := by
  obtain ⟨⟨primes, next⟩, accepted⟩ := isOk_iff.mp spend_accepted
  have regular := (chained.mono fun _ _ => Verified.admitted).regular
  refine validateTx_limits regular.noPQOutput accepted ?_
  have opened : ∀ field ∈ spend.openFields, field.length ≤ maxFieldBytes := by decide
  exact opened

/-- The spend with a byte behind its conservation proof. -/
def padded : Transaction := { spend with conservation := spend.conservation ++ [0] }

theorem spend_recoded : Recoded net spend padded := by
  have parses : (parseSchnorrProof spend.conservation).isOk = true := by decide
  have bounded : (spend.conservation ++ [0]).length ≤ maxFieldBytes := by decide
  obtain ⟨proof, parsed⟩ := isOk_iff.mp parses
  exact Recoded.tail spend_limits parsed bounded (parseSchnorrProof_append parsed [0])

theorem padded_size : padded.serialize.length = spend.serialize.length + 1 :=
  size_padded spend

theorem padded_id : padded.hash net ≠ spend.hash net := by
  intro same
  have sizes := congrArg List.length (spend_preimage _ same)
  rw [padded_size] at sizes
  omega

theorem spend_pays : paysFor spend.fee (spend.serialize.length + 1) = true := by
  set_option maxRecDepth 30000 in
  decide

/-- The fee of the spend pays for another encoding. -/
theorem spend_malleable :
    ¬ ∀ t', Recoded net spend t' → t'.hash net ≠ spend.hash net →
      (validateTxLocked net (replay net chain) false t' 61 ⟨[], []⟩).isOk = false := by
  rw [unmalleable_iff decoding (chained.mono fun _ _ => Verified.admitted) spend_limits
    (fun _ _ => spend_preimage _) spend_accepted, spend_pays]
  exact fun both => Bool.true_eq_false_eq_False both.1

/-- **A second id.** A third party can give a pending transaction another id. -/
theorem padded_proof_accepted :
    ¬ ∀ (V : Primitives), Decoding V → ∀ chain, Chained V (Verified V) chain →
      ∀ t height seen, t.Limits →
        (validateTxLocked V (replay V chain) false t height seen).isOk = true →
          ∀ t', Recoded V t t' → t'.hash V ≠ t.hash V →
            (validateTxLocked V (replay V chain) false t' height seen).isOk = false := by
  intro unmalleable
  have rejected := unmalleable net decoding chain chained spend 61 ⟨[], []⟩ spend_limits
    spend_accepted padded spend_recoded padded_id
  have noPQ := (chained.mono fun _ _ => Verified.admitted).regular.noPQOutput
  have accepted := (spend_recoded.accepted_iff decoding noPQ spend_accepted).mpr
    (by rw [padded_size]; exact spend_pays)
  rw [accepted] at rejected
  exact Bool.true_eq_false_eq_False rejected

end Padded

end Obscura
