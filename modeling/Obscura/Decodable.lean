import Obscura.Decode
import Obscura.Testnet

/-! # Which accepted blocks can be read back

Validation and the decoder bound the parts of a block independently of each other.
Validation fixes the length of every key, commitment and nullifier and counts the
inputs and outputs of ordinary transactions; it does not bound proofs, signatures,
encrypted amounts and the referrer tag, the outputs of the coinbase, or the size of one
transaction. An accepted block is read back exactly when what is left open is within
the decoder's limits.
-/

namespace Obscura.Tx

open Wire Reader Checked

/-- The fields whose length no validation rule fixes. -/
def Input.openFields (i : Input) : List Bytes := [i.ownershipProof, i.equalityProof, i.keyImageProof]

/-- The anonymous proof. -/
def AnonInput.openFields (i : AnonInput) : List Bytes := [i.proof]

/-- The claim or refund signature. -/
def SwapIn.openFields (i : SwapIn) : List Bytes := [i.sig]

/-- The proofs of possession. -/
def SwapOut.openFields (o : SwapOut) : List Bytes := [o.popA, o.popB]

/-- The range proof and the encrypted fields. -/
def Output.openFields (o : Output) : List Bytes := [o.rangeProof, o.encAmount, o.encMask]

/-- The owner's signature. -/
def VaultIn.openFields (i : VaultIn) : List Bytes := [i.sig]

/-- The spend proof. -/
def ZKInput.openFields (i : ZKInput) : List Bytes := [i.proof]

/-- The mint proof and the recipient's keys. -/
def ZKOutput.openFields (o : ZKOutput) : List Bytes := [o.mintProof, o.key, o.txPubKey]

/-- The proof and the recipient's keys and amount. -/
def CZKSpend.openFields (s : CZKSpend) : List Bytes := [s.proof, s.key, s.txPubKey, s.encAmount]

/-- The fields of a transaction without post-quantum parts whose length no validation
rule fixes. -/
def Transaction.openFields (t : Transaction) : List Bytes :=
  t.inputs.flatMap Input.openFields ++ t.anonInputs.flatMap AnonInput.openFields ++
    t.swapInputs.flatMap SwapIn.openFields ++ t.swapOutputs.flatMap SwapOut.openFields ++
    t.outputs.flatMap Output.openFields ++ t.vaultInputs.flatMap VaultIn.openFields ++
    t.zkInputs.flatMap ZKInput.openFields ++ t.zkOutputs.flatMap ZKOutput.openFields ++
    t.czkSpends.flatMap CZKSpend.openFields ++ [t.conservation, t.referrerTag]

/-- Every open field of a transaction within the limits is one. -/
theorem Transaction.Limits.openFields {t : Transaction} (limits : t.Limits) :
    Fits Transaction.openFields t := by
  have items : ∀ {α : Type} {most : Nat} {fields : α → List Bytes} (opened : α → List Bytes)
      {values : List α}, (∀ value, opened value ⊆ fields value) → Listed most fields values →
      ∀ field ∈ values.flatMap opened, Bounded field := by
    intro α most fields opened values part listed field member
    obtain ⟨value, here, member⟩ := List.mem_flatMap.mp member
    exact listed.2 value here field (part value member)
  unfold Fits Transaction.openFields
  simp only [List.forall_mem_append, List.forall_mem_cons, and_assoc]
  refine ⟨items Input.openFields ?_ limits.inputs, items AnonInput.openFields ?_ limits.anonInputs,
    items SwapIn.openFields ?_ limits.swapInputs, items SwapOut.openFields ?_ limits.swapOutputs,
    items Output.openFields ?_ limits.outputs, items VaultIn.openFields ?_ limits.vaultInputs,
    items ZKInput.openFields ?_ limits.zkInputs, items ZKOutput.openFields ?_ limits.zkOutputs,
    items CZKSpend.openFields ?_ limits.czkSpends, limits.conservation, limits.referrerTag, ?_⟩
  · simp [Input.openFields, Input.fields]
  · simp [AnonInput.openFields, AnonInput.fields]
  · simp [SwapIn.openFields, SwapIn.fields]
  · simp [SwapOut.openFields, SwapOut.fields]
  · simp [Output.openFields, Output.fields]
  · simp [VaultIn.openFields, VaultIn.fields]
  · simp [ZKInput.openFields, ZKInput.fields]
  · simp [ZKOutput.openFields, ZKOutput.fields]
  · simp [CZKSpend.openFields, CZKSpend.fields]
  · simp

theorem bounded_of_length {field : Bytes} (length : field.length = 32) : Bounded field := by
  rw [Bounded, length]
  decide

theorem bounded_of_parseNode {field : Bytes} (parsed : (parseNode field).isSome = true) :
    Bounded field := by
  unfold parseNode at parsed
  split_ifs at parsed with canonical
  · exact bounded_of_length canonical.1
  · simp at parsed

end Obscura.Tx

namespace Obscura

open Wire Tx Checked

section Legs

variable {V : Primitives} {L : Ledger} {skip : Bool} {height : Nat} {t : Transaction}

theorem listed_of_run {σ α : Type} {body : σ → α → Check σ} {most : Nat}
    {fields opened : α → List Bytes} {values : List α} {start final : σ}
    (step : ∀ state value next, body state value = .ok next → Fits opened value →
      Fits fields value)
    (run : values.foldlM body start = .ok final) (few : values.length ≤ most)
    (bounded : ∀ field ∈ values.flatMap opened, Bounded field) : Listed most fields values := by
  refine ⟨few, fun value member => ?_⟩
  exact foldlM_forall _ step run value member fun field listed =>
    bounded field (List.mem_flatMap.mpr ⟨value, member, listed⟩)

theorem checkInput_fits {ctx : Hash} (seen : List Bytes) (input : Input) (next : List Bytes)
    (accepted : checkInput V L skip height ctx seen input = .ok next)
    (opened : Fits Input.openFields input) : Fits Input.fields input := by
  obtain ⟨⟨ref, commitment, image⟩, -⟩ := checkInput_ok.mp accepted
  simp only [Fits, Input.openFields, List.forall_mem_cons] at opened
  simp [Fits, Input.fields, opened, bounded_of_length ref, bounded_of_length commitment,
    bounded_of_length image]

theorem checkAnonInput_fits {ctx : Hash} (seen : List Bytes) (input : AnonInput)
    (next : List Bytes) (accepted : checkAnonInput V L skip height ctx seen input = .ok next)
    (opened : Fits AnonInput.openFields input) : Fits AnonInput.fields input := by
  obtain ⟨⟨tag, commitment⟩, -⟩ := checkAnonInput_ok.mp accepted
  simp only [Fits, AnonInput.openFields, List.forall_mem_cons] at opened
  simp [Fits, AnonInput.fields, opened, bounded_of_length tag, bounded_of_length commitment]

theorem checkSwapInput_fits {ctx : Hash} (state : List Bytes × UInt64) (input : SwapIn)
    (next : List Bytes × UInt64)
    (accepted : checkSwapInput V L skip height ctx state input = .ok next)
    (opened : Fits SwapIn.openFields input) : Fits SwapIn.fields input := by
  obtain ⟨key, -⟩ := checkSwapInput_ok.mp accepted
  simp only [Fits, SwapIn.openFields, List.forall_mem_cons] at opened
  simp [Fits, SwapIn.fields, opened, bounded_of_length key]

theorem checkVaultInput_fits {ctx : Hash} (state : List Bytes × UInt64) (input : VaultIn)
    (next : List Bytes × UInt64)
    (accepted : checkVaultInput V L skip height ctx state input = .ok next)
    (opened : Fits VaultIn.openFields input) : Fits VaultIn.fields input := by
  obtain ⟨key, -⟩ := checkVaultInput_ok.mp accepted
  simp only [Fits, VaultIn.openFields, List.forall_mem_cons] at opened
  simp [Fits, VaultIn.fields, opened, bounded_of_length key]

theorem checkSwapOutput_fits (state : List Bytes × UInt64) (so : SwapOut)
    (next : List Bytes × UInt64) (accepted : checkSwapOutput V L skip height state so = .ok next)
    (opened : Fits SwapOut.openFields so) : Fits SwapOut.fields so := by
  obtain ⟨⟨key, claim, refund, claimA, claimB, claimR, claimT⟩, -⟩ := checkSwapOutput_ok.mp accepted
  simp only [Fits, SwapOut.openFields, List.forall_mem_cons] at opened
  simp [Fits, SwapOut.fields, opened, bounded_of_length key, bounded_of_length claim,
    bounded_of_length refund, bounded_of_length claimA, bounded_of_length claimB,
    bounded_of_length claimR, bounded_of_length claimT]

theorem checkVaultOutput_fits (state : List Bytes × UInt64) (vo : VaultOut)
    (next : List Bytes × UInt64) (accepted : checkVaultOutput V L state vo = .ok next) :
    Fits VaultOut.fields vo := by
  obtain ⟨⟨key, owner⟩, -⟩ := checkVaultOutput_ok.mp accepted
  simp [Fits, VaultOut.fields, bounded_of_length key, bounded_of_length owner]

theorem checkOutput_fits {seen : List Bytes} {o : Output} {result : Bytes × List Bytes}
    (accepted : checkOutput V L skip seen o = .ok result) (opened : Fits Output.openFields o) :
    Fits Output.fields o := by
  obtain ⟨⟨key, txKey, commitment⟩, -⟩ := checkOutput_ok.mp accepted
  simp only [Fits, Output.openFields, List.forall_mem_cons] at opened
  simp [Fits, Output.fields, opened, bounded_of_length key, bounded_of_length txKey,
    bounded_of_length commitment]

theorem checkOutputs_listed {seen : List Bytes} {outs : List Output}
    {result : List Bytes × List Bytes} (accepted : checkOutputs V L skip seen outs = .ok result)
    (few : outs.length ≤ Config.maxOutputs)
    (bounded : ∀ field ∈ outs.flatMap Output.openFields, Bounded field) :
    Listed Config.maxOutputs Output.fields outs := by
  refine listed_of_run (fun state o next checked => ?_) accepted few bounded
  simp only [bind_ok, Prod.exists] at checked
  obtain ⟨_, _, checked, _⟩ := checked
  exact checkOutput_fits checked

theorem checkZKInput_fits {bind : Bytes} (state : List Bytes × UInt64) (input : ZKInput)
    (next : List Bytes × UInt64) (accepted : checkZKInput V L skip bind state input = .ok next)
    (opened : Fits ZKInput.openFields input) : Fits ZKInput.fields input := by
  obtain ⟨nullifier, anchor, -⟩ := checkZKInput_ok.mp accepted
  simp only [Fits, ZKInput.openFields, List.forall_mem_cons] at opened
  simp [Fits, ZKInput.fields, opened, bounded_of_parseNode nullifier, bounded_of_parseNode anchor]

theorem checkZKOutput_fits {bind : Bytes} (state : UInt64) (o : ZKOutput) (next : UInt64)
    (accepted : checkZKOutput V skip bind state o = .ok next)
    (opened : Fits ZKOutput.openFields o) : Fits ZKOutput.fields o := by
  obtain ⟨leaf, -⟩ := checkZKOutput_ok.mp accepted
  simp only [Fits, ZKOutput.openFields, List.forall_mem_cons] at opened
  simp [Fits, ZKOutput.fields, opened, bounded_of_parseNode leaf]

theorem checkCZKSpend_fits {bind : Bytes} (state : List Bytes × UInt64) (s : CZKSpend)
    (next : List Bytes × UInt64) (accepted : checkCZKSpend V L skip bind state s = .ok next)
    (opened : Fits CZKSpend.openFields s) : Fits CZKSpend.fields s := by
  obtain ⟨nullifier, anchor, leaf, -⟩ := checkCZKSpend_ok.mp accepted
  simp only [Fits, CZKSpend.openFields, List.forall_mem_cons] at opened
  simp [Fits, CZKSpend.fields, opened, bounded_of_parseNode nullifier, bounded_of_parseNode anchor,
    bounded_of_parseNode leaf]

theorem checkShape_counts {result : Unit} (accepted : checkShape t = .ok result) :
    t.pqBlindDiff = [] ∧ t.inputs.length ≤ Config.maxInputs ∧
      t.anonInputs.length ≤ Config.maxInputs ∧ t.swapInputs.length ≤ Config.maxInputs ∧
      t.outputs.length ≤ Config.maxOutputs ∧ t.swapOutputs.length ≤ Config.maxOutputs ∧
      t.vaultInputs.length ≤ Config.maxInputs ∧ t.vaultOutputs.length ≤ Config.maxOutputs := by
  unfold checkShape at accepted
  simp only [bind_ok, reject_ok, exists_const, not_or, not_not, not_lt, ne_eq] at accepted
  obtain ⟨⟨noDiff, -⟩, -, -, counts, -⟩ := accepted
  exact ⟨noDiff, counts⟩

/-- An accepted ordinary transaction is within the decoder's limits when its open fields
are. -/
theorem validateTx_limits {seen next : Seen} {primes : List Bytes} (noPQ : L.pqUtxo = ∅)
    (accepted : validateTxLocked V L skip t height seen = .ok (primes, next))
    (opened : Fits Transaction.openFields t) : t.Limits := by
  obtain ⟨notCoinbase, classical, noInputs, noOutputs, -⟩ := validateTx_classical noPQ accepted
  unfold validateTxLocked at accepted
  simp only [bind_ok, reject_ok, exists_const, classical, Bool.false_eq_true, ↓reduceIte] at accepted
  obtain ⟨-, _, shape, legs⟩ := accepted
  obtain ⟨noDiff, inputCount, anonCount, swapInCount, outputCount, swapOutCount, vaultInCount,
    vaultOutCount⟩ := checkShape_counts shape
  unfold validateLegs validateZKInputsLocked validateZKOutputsLocked validateCZKSpendsLocked at legs
  simp only [bind_ok, reject_ok, exists_const, Prod.exists, not_lt] at legs
  obtain ⟨_, inputs, _, anons, _, _, swapIns, _, _, vaultIns, _, _, swapOuts, _, _, vaultOuts, _, _,
    outputs, _, _, ⟨zkInCount, zkIns⟩, _, _, _, ⟨zkOutCount, zkOuts⟩, _, _, _, _,
    ⟨czkCount, czks⟩, -⟩ := legs
  unfold Fits Transaction.openFields at opened
  simp only [List.forall_mem_append, List.forall_mem_cons, and_assoc] at opened
  obtain ⟨openIn, openAnon, openSwapIn, openSwapOut, openOut, openVaultIn, openZKIn, openZKOut,
    openCZK, conservation, referrerTag, -⟩ := opened
  constructor
  case inputs => exact listed_of_run checkInput_fits inputs inputCount openIn
  case anonInputs => exact listed_of_run checkAnonInput_fits anons anonCount openAnon
  case swapInputs => exact listed_of_run checkSwapInput_fits swapIns swapInCount openSwapIn
  case swapOutputs => exact listed_of_run checkSwapOutput_fits swapOuts swapOutCount openSwapOut
  case outputs => exact checkOutputs_listed outputs outputCount openOut
  case conservation => exact conservation
  case referrerTag => exact referrerTag
  case pqInputs => rw [noInputs]; exact ⟨Nat.zero_le _, by simp⟩
  case pqOutputs => rw [noOutputs]; exact ⟨Nat.zero_le _, by simp⟩
  case pqBlindDiff => rw [noDiff]; exact Nat.zero_le _
  case vaultInputs => exact listed_of_run checkVaultInput_fits vaultIns vaultInCount openVaultIn
  case vaultOutputs => exact ⟨vaultOutCount, foldlM_forall _ checkVaultOutput_fits vaultOuts⟩
  case zkInputs => exact listed_of_run checkZKInput_fits zkIns zkInCount openZKIn
  case zkOutputs => exact listed_of_run checkZKOutput_fits zkOuts zkOutCount openZKOut
  case czkSpends => exact listed_of_run checkCZKSpend_fits czks czkCount openCZK

theorem coinbase_limits {cb : Transaction} {seen : List Bytes} {result : List Bytes × List Bytes}
    (legs : CoinbaseLegs cb) (accepted : checkOutputs V L skip seen cb.outputs = .ok result)
    (few : cb.outputs.length ≤ Config.maxOutputs) (opened : Fits Transaction.openFields cb) :
    cb.Limits := by
  unfold Fits Transaction.openFields at opened
  simp only [List.forall_mem_append, List.forall_mem_cons, and_assoc] at opened
  obtain ⟨-, -, -, -, openOut, -, -, -, -, conservation, referrerTag, -⟩ := opened
  have none : ∀ {α : Type} {most : Nat} {fields : α → List Bytes} {values : List α}, values = [] →
      Listed most fields values := by
    rintro α most fields values rfl
    exact ⟨Nat.zero_le _, by simp⟩
  constructor
  case inputs => exact none legs.inputs
  case anonInputs => exact none legs.anonInputs
  case swapInputs => exact none legs.swapInputs
  case swapOutputs => exact none legs.swapOutputs
  case outputs => exact checkOutputs_listed accepted few openOut
  case conservation => exact conservation
  case referrerTag => exact referrerTag
  case pqInputs => exact none legs.pqInputs
  case pqOutputs => exact none legs.pqOutputs
  case pqBlindDiff => rw [legs.pqBlindDiff]; exact Nat.zero_le _
  case vaultInputs => exact none legs.vaultInputs
  case vaultOutputs => exact none legs.vaultOutputs
  case zkInputs => exact none legs.zkInputs
  case zkOutputs => exact none legs.zkOutputs
  case czkSpends => exact none legs.czkSpends

end Legs

/-! ## Accepted blocks -/

/-- What validation leaves open is within the decoder's limits. -/
structure Block.Decodable (b : Block) : Prop where
  accValue : b.header.accValue.length ≤ 2 ^ 16
  coinbase : ∀ cb ∈ b.txs.head?, cb.outputs.length ≤ Config.maxOutputs
  txBytes : ∀ t ∈ b.txs, t.serialize.length ≤ maxTxBytes
  fields : ∀ t ∈ b.txs, ∀ field ∈ t.openFields, field.length ≤ maxFieldBytes
  por : ∀ entry ∈ b.por, entry.txBytes.length ≤ maxTxBytes ∧ entry.steps.length ≤ 64

theorem Block.Limits.decodable {b : Block} (limits : b.Limits) : b.Decodable where
  accValue := limits.accValue
  coinbase cb first := (limits.txs cb (List.mem_of_mem_head? first)).outputs.1
  txBytes := limits.txBytes
  fields t member := (limits.txs t member).openFields
  por entry member := ⟨(limits.por entry member).txBytes, (limits.por entry member).steps⟩

section Accepted

variable {V : Primitives} {skip : Transaction → Bool} {now : Int} {L : Ledger} {b : Block}

theorem tallyTx_validated {tally next : TxTally} {t : Transaction}
    (accepted : tallyTx V skip L b tally t = .ok next) :
    ∃ primes seen,
      validateTxLocked V L (skip t) t b.header.height tally.seen = .ok (primes, seen) := by
  unfold tallyTx at accepted
  simp only [bind_ok, mapError_ok, Prod.exists] at accepted
  obtain ⟨primes, seen, valid, -⟩ := accepted
  exact ⟨primes, seen, valid⟩

theorem Block.Decodable.limits (noPQ : L.pqUtxo = ∅)
    (accepted : validateBlockLocked V skip now L b = .ok ()) (decodable : b.Decodable) :
    b.Limits := by
  unfold validateBlockLocked at accepted
  simp only [bind_ok, orReject_ok, Prod.exists] at accepted
  obtain ⟨_, -, _, -, cb, listOk, _, _, outputs, _, legs, _, tally, -⟩ := accepted
  obtain ⟨-, txs, split⟩ := checkTxList_ok listOk
  rw [split, List.tail_cons] at tally
  refine ⟨decodable.accValue, decodable.txBytes, fun t member => ?_,
    fun entry member => ⟨(decodable.por entry member).1, (decodable.por entry member).2⟩⟩
  have opened : Fits Transaction.openFields t := decodable.fields t member
  rw [split] at member
  rcases List.mem_cons.mp member with rfl | member
  · have few := decodable.coinbase t (by rw [split]; rfl)
    exact coinbase_limits (checkCoinbaseLegs_ok.mp legs) outputs few opened
  · obtain ⟨_, _, _, valid⟩ := foldlM_forall
      (fun t => ∃ seen primes next, validateTxLocked V L (skip t) t b.header.height seen =
        .ok (primes, next)) (fun tally t next step => ⟨_, tallyTx_validated step⟩) tally t member
    exact validateTx_limits noPQ valid opened

/-- **Which accepted blocks can be read back.** A block accepted on any chain of accepted
blocks, under any content of the proof cache, is decoded to itself exactly when the
parts that validation leaves open are within the decoder's limits. -/
theorem accepted_block_decodes_iff {chain : List Block} (chained : Chained V (Admitted V) chain)
    (typed : b.Typed) (accepted : validateBlockLocked V skip now (replay V chain) b = .ok ()) :
    deserializeBlock b.serialize = .ok b ↔ b.Decodable := by
  have noPQ := chained.regular.noPQOutput
  obtain ⟨_, _, block⟩ := validateBlock_accepted noPQ accepted
  obtain ⟨tip, -, header⟩ := block.header
  rw [deserializeBlock_serialize_iff typed header.size]
  exact ⟨Block.Limits.decodable, Block.Decodable.limits noPQ accepted⟩

end Accepted

/-! ## A block with a referrer tag -/

/-- One value for every hash. -/
def flatPrimitives : Primitives :=
  { Testnet.primitives fun _ => zeroHash with wideHash2 := fun _ _ => zeroHash }

/-- The first coinbase, with a referrer tag. -/
def taggedCoinbase (tag : Bytes) : Transaction :=
  { Testnet.payout 1 0 33340454101563 with referrerTag := tag }

/-- The header of a first block. -/
def flatHeader : Header where
  height := 1
  prevHash := zeroHash
  timestamp := genesisTimestamp + 1
  difficulty := 64
  accValue := [1]
  accSize := 1
  numTxs := 1
  stateRoot := zeroHash

/-- The genesis coinbase as an answer. -/
def flatEntry : PoREntry := ⟨0, genesisCoinbase.serialize, []⟩

/-- The first block, with a referrer tag in its coinbase. -/
def taggedBlock (tag : Bytes) : Block :=
  ⟨flatHeader, [taggedCoinbase tag], List.replicate 8 flatEntry⟩

theorem length_taggedCoinbase (tag : Bytes) :
    (taggedCoinbase tag).serialize.length = (taggedCoinbase []).serialize.length + tag.length := by
  have outputs : (taggedCoinbase tag).outputs = (taggedCoinbase []).outputs := rfl
  unfold Transaction.serialize
  rw [outputs]
  simp only [List.length_append, length_part, taggedCoinbase, List.length_nil]
  omega

theorem length_taggedBlock (tag : Bytes) :
    (taggedBlock tag).serialize.length = (taggedBlock []).serialize.length + tag.length := by
  have grown := length_taggedCoinbase tag
  simp only [Block.serialize, taggedBlock, putList, List.flatMap_cons, List.flatMap_nil,
    length_part, List.length_append, List.length_cons, List.length_nil, grown]
  omega

theorem taggedBlock_header (tag : Bytes)
    (size : (taggedBlock tag).serialize.length ≤ Config.maxBlockBytes) :
    HeaderAccepted flatPrimitives (genesisTimestamp + 1) (genesisLedger flatPrimitives)
      (taggedBlock tag) (genesisBlock flatPrimitives (.empty flatPrimitives)).header := by
  constructor
  case size => exact size
  case height => rfl
  case prevHash => rfl
  case positive =>
    change flatHeader.difficulty ≠ 0
    decide
  case notFuture =>
    change flatHeader.timestamp ≤ _
    decide
  case afterMedian =>
    change _ < flatHeader.timestamp
    decide
  case difficulty =>
    change flatHeader.difficulty = _
    decide
  case work =>
    refine ⟨Config.powGenesisSeed, ?_, rfl⟩
    change Ledger.powSeed flatPrimitives _ 1 = _
    decide

theorem taggedBlock_outputs :
    checkOutputs flatPrimitives (genesisLedger flatPrimitives) false [] (taggedCoinbase []).outputs =
      .ok ([Testnet.payoutKey 1], [hexstr (Testnet.payoutKey 1),
        ascii "key:" ++ hexstr (Testnet.payoutKey 1)]) := by
  decide

theorem taggedBlock_coinbase (tag : Bytes) :
    checkCoinbase flatPrimitives (genesisLedger flatPrimitives) (taggedBlock tag)
      (taggedCoinbase tag) 0 = .ok () := by
  have expected : (genesisLedger flatPrimitives).expectedCoinbaseMinted 0 tag =
      .ok 33340454101563 := by
    change (genesisLedger flatPrimitives).expectedCoinbaseMinted 0 [] = _
    decide
  unfold checkCoinbase
  simp only [bind_ok, reject_ok, exists_const, ne_eq, not_not, Bool.not_eq_true,
    Bool.not_eq_false']
  refine ⟨_, expected, rfl, ?_, rfl, rfl, ?_⟩
  · change ¬ Config.moneySupplyCap < 33340454101563
    decide
  · exact Testnet.payout_conserves (fun _ => zeroHash) 1 0 33340454101563 [] []

/-- The block with a tag is accepted. -/
theorem taggedBlock_accepted (tag : Bytes)
    (size : (taggedBlock tag).serialize.length ≤ Config.maxBlockBytes) :
    validateBlockLocked flatPrimitives (fun _ => false) (genesisTimestamp + 1)
      (replay flatPrimitives []) (taggedBlock tag) = .ok () := by
  change validateBlockLocked flatPrimitives (fun _ => false) (genesisTimestamp + 1)
      (genesisLedger flatPrimitives) (taggedBlock tag) = .ok ()
  unfold validateBlockLocked
  simp only [bind_ok, reject_ok, orReject_ok, exists_const, Prod.exists, ne_eq, not_not]
  refine ⟨(genesisBlock flatPrimitives (.empty flatPrimitives)).header, by decide, (),
    checkHeader_ok.mpr (taggedBlock_header tag size), taggedCoinbase tag, ?_, _, _,
    taggedBlock_outputs, (), checkCoinbaseLegs_ok.mpr ?_, ?_⟩
  · simp [checkTxList, taggedBlock, taggedCoinbase, Testnet.payout, reject]
  · constructor <;> rfl
  · refine ⟨_, rfl, (), ?_, (), ?_, rfl, (), ?_, ?_⟩
    · rfl
    · exact taggedBlock_coinbase tag
    · change validatePoRLocked _ _ (taggedBlock []) = _
      decide
    · change checkRoots flatPrimitives (genesisLedger flatPrimitives) (taggedBlock [])
        [Testnet.payoutKey 1] = _
      decide
theorem taggedBlock_typed (tag : Bytes) : (taggedBlock tag).Typed := by
  have header : flatHeader.Typed := by constructor <;> decide
  refine ⟨header, fun entry member => ?_⟩
  obtain rfl := List.eq_of_mem_replicate member
  exact ⟨by decide, fun step listed => absurd listed List.not_mem_nil⟩

/-- A short tag is read back. -/
theorem taggedBlock_decodes :
    deserializeBlock (taggedBlock [7]).serialize = .ok (taggedBlock [7]) := by
  have short : (taggedBlock [7]).serialize.length ≤ Config.maxBlockBytes := by decide +kernel
  have accepted := taggedBlock_accepted [7] short
  have chained : Chained flatPrimitives (Admitted flatPrimitives) [] := trivial
  refine (accepted_block_decodes_iff chained (taggedBlock_typed [7]) accepted).mpr ?_
  constructor
  case accValue => decide
  case coinbase =>
    rintro cb ⟨rfl⟩
    decide
  case txBytes =>
    intro t member
    rw [List.mem_singleton.mp member]
    decide +kernel
  case fields =>
    intro t member
    rw [List.mem_singleton.mp member]
    decide
  case por =>
    intro entry member
    rw [List.eq_of_mem_replicate member]
    decide +kernel

theorem taggedBlock_undecodable {tag : Bytes} (long : maxFieldBytes < tag.length)
    (fits : (taggedBlock tag).serialize.length ≤ Config.maxBlockBytes) :
    deserializeBlock (taggedBlock tag).serialize ≠ .ok (taggedBlock tag) := by
  intro decoded
  have limits := deserializeBlock_limits fits decoded
  have bounded := (limits.txs (taggedCoinbase tag) (List.mem_singleton_self _)).referrerTag
  exact absurd bounded (not_le.mpr long)

/-- A tag over the field limit is accepted but not read back. -/
theorem long_referrer_tag_undecodable :
    ∃ chain now b, Chained flatPrimitives (Admitted flatPrimitives) chain ∧ Block.Typed b ∧
      validateBlockLocked flatPrimitives (fun _ => false) now (replay flatPrimitives chain) b =
        .ok () ∧ deserializeBlock b.serialize ≠ .ok b := by
  obtain ⟨tag, length⟩ : ∃ tag : Bytes, tag.length = maxFieldBytes + 1 :=
    ⟨List.replicate _ 0, List.length_replicate⟩
  have plain : (taggedBlock []).serialize.length ≤ 20000 := by decide +kernel
  have fits : (taggedBlock tag).serialize.length ≤ Config.maxBlockBytes := by
    have grown := length_taggedBlock tag
    simp only [maxFieldBytes] at length
    simp only [Config.maxBlockBytes]
    omega
  exact ⟨[], _, _, trivial, taggedBlock_typed tag, taggedBlock_accepted tag fits,
    taggedBlock_undecodable (by omega) fits⟩

end Obscura
