import Obscura.Ledger

/-! # What the state root binds

The byte string behind the state root determines every scalar, every record map
and the key set of every boolean set. It does not determine the values of a
boolean set, so two decoded states with one preimage answer every query of the
validator alike exactly when they hold the value false at the same keys of the
queried sets.
-/

namespace Obscura

open Wire Tx Std

namespace StateRoot

/-! ## Unambiguous encodings -/

theorem putWord_delimiting : SelfDelimiting (fun _ => True) putWord := by
  refine .of_width 8 (fun word => length_bigEndian 8 word.toNat) ?_
  intro first second _ _ same
  exact UInt64.toNat_inj.mp
    (bigEndian_inj 8 (by simpa using first.toNat_lt) (by simpa using second.toNat_lt) same)

theorem putCommit_delimiting : SelfDelimiting (fun _ => True) putCommit := by
  refine .of_width 32 (fun commit => length_bigEndian 32 commit.toNat) ?_
  intro first second _ _ same
  exact BitVec.eq_of_toNat_eq (bigEndian_inj 32 (by simpa using first.isLt)
    (by simpa using second.isLt) same)

/-- A string whose length fits a word, as every Go string's does. -/
def Sized (bytes : Bytes) : Prop := bytes.length < 2 ^ 64

/-- A boolean set whose size and key lengths fit a word. -/
def SizedSet (set : GoMap Bool) : Prop :=
  set.keys.length < 2 ^ 64 ∧ ∀ key ∈ set.keys, Sized key

/-- A map whose size and key lengths fit a word, with values satisfying `valid`. -/
def SizedMap {β : Type} (valid : β → Prop) (map : GoMap β) : Prop :=
  map.toList.length < 2 ^ 64 ∧ ∀ entry ∈ map.toList, Sized entry.1 ∧ valid entry.2

theorem keys_delimiting (name : String) {first second : GoMap Bool} (firstSized : SizedSet first)
    (secondSized : SizedSet second) {left right : Bytes}
    (same : boolSet name first ++ left = boolSet name second ++ right) :
    first.keys = second.keys ∧ left = right := by
  simp only [boolSet, List.append_assoc, List.append_cancel_left_eq] at same
  exact putList_delimiting putBytes_delimiting firstSized secondSized same

theorem putMap_delimiting {β : Type} {valid : β → Prop} {putValue : β → Bytes} (name : String)
    (delimiting : SelfDelimiting valid putValue) :
    SelfDelimiting (SizedMap valid) (putMap name putValue) := by
  intro first second firstSized secondSized left right same
  simp only [putMap, List.append_assoc, List.append_cancel_left_eq] at same
  obtain ⟨entries, rests⟩ := putList_delimiting (putBytes_delimiting.append delimiting)
    firstSized secondSized same
  exact ⟨ExtTreeMap.toList_inj.mp entries, rests⟩

/-- Every field of a swap has a length that the encoding can carry. -/
def SizedSwap (entry : SwapEntry) : Prop :=
  Sized entry.claimKey ∧ Sized entry.refundKey ∧ Sized entry.claimR ∧ Sized entry.claimT

/-- So has the key of a vault. -/
def SizedVault (entry : VaultEntry) : Prop := Sized entry.ownerKey

/-- So has every field of a post-quantum output. -/
def SizedPQOutput (output : PQOutput) : Prop :=
  Sized output.oneTimeKey ∧ Sized output.kemCiphertext ∧ Sized output.viewTag ∧
    Sized output.commitment ∧ Sized output.encAmount ∧ Sized output.mac

/-- A swap's encoding delimits itself. -/
theorem putSwap_delimiting : SelfDelimiting SizedSwap putSwap := by
  intro first second sized sized' left right same
  obtain ⟨claim, refund, nonce, point⟩ := sized
  obtain ⟨claim', refund', nonce', point'⟩ := sized'
  simp only [putSwap, List.append_assoc] at same
  obtain ⟨amounts, same⟩ := putWord_delimiting trivial trivial same
  obtain ⟨unlocks, same⟩ := putWord_delimiting trivial trivial same
  obtain ⟨claims, same⟩ := putBytes_delimiting claim claim' same
  obtain ⟨refunds, same⟩ := putBytes_delimiting refund refund' same
  obtain ⟨nonces, same⟩ := putBytes_delimiting nonce nonce' same
  obtain ⟨points, same⟩ := putBytes_delimiting point point' same
  exact ⟨SwapEntry.ext amounts claims refunds unlocks nonces points, same⟩

/-- So does a vault's. -/
theorem putVault_delimiting : SelfDelimiting SizedVault putVault := by
  intro first second sized sized' left right same
  simp only [putVault, List.append_assoc] at same
  obtain ⟨amounts, same⟩ := putWord_delimiting trivial trivial same
  obtain ⟨terms, same⟩ := putWord_delimiting trivial trivial same
  obtain ⟨rates, same⟩ := putWord_delimiting trivial trivial same
  obtain ⟨deposits, same⟩ := putWord_delimiting trivial trivial same
  obtain ⟨owners, same⟩ := putBytes_delimiting sized sized' same
  exact ⟨VaultEntry.ext amounts terms rates owners deposits, same⟩

/-- So does a post-quantum output's. -/
theorem putPQOutput_delimiting : SelfDelimiting SizedPQOutput putPQOutput := by
  intro first second sized sized' left right same
  obtain ⟨keySized, ciphertextSized, tagSized, commitmentSized, encSized, macSized⟩ := sized
  obtain ⟨keySized', ciphertextSized', tagSized', commitmentSized', encSized', macSized'⟩ := sized'
  simp only [putPQOutput, List.append_assoc] at same
  obtain ⟨amounts, same⟩ := putWord_delimiting trivial trivial same
  obtain ⟨keys, same⟩ := putBytes_delimiting keySized keySized' same
  obtain ⟨ciphertexts, same⟩ := putBytes_delimiting ciphertextSized ciphertextSized' same
  obtain ⟨tags, same⟩ := putBytes_delimiting tagSized tagSized' same
  obtain ⟨commitments, same⟩ := putBytes_delimiting commitmentSized commitmentSized' same
  obtain ⟨encs, same⟩ := putBytes_delimiting encSized encSized' same
  obtain ⟨macs, same⟩ := putBytes_delimiting macSized macSized' same
  exact ⟨PQOutput.ext keys amounts ciphertexts tags commitments encs macs, same⟩

theorem putIndex_delimiting :
    SelfDelimiting (fun _ => True) fun index : Int64 => putWord index.toUInt64 := by
  intro first second _ _ left right same
  obtain ⟨words, rests⟩ := putWord_delimiting trivial trivial same
  exact ⟨congrArg Int64.ofUInt64 words, rests⟩

/-! ## What the preimage determines -/

/-- Every length of the state fits a word, as every Go slice, string and map
length does. -/
structure Representable (c : ResidualState) : Prop where
  swapNonces : SizedSet c.swapNonces
  accValues : SizedSet c.accValues
  pqNull : SizedSet c.pqNull
  pqRoots : SizedSet c.pqRoots
  cmRoots : SizedSet c.cmRoots
  cmFinal : SizedSet c.cmFinal
  zkNull : SizedSet c.zkNull
  referral : SizedMap (fun _ => True) c.referral
  pqIndex : SizedMap (fun _ => True) c.pqIndex
  cmRootOrder : c.cmRootOrder.length < 2 ^ 64 ∧ ∀ root ∈ c.cmRootOrder, Sized root
  swaps : SizedMap SizedSwap c.swaps
  vaults : SizedMap SizedVault c.vaults
  pqUtxo : SizedMap SizedPQOutput c.pqUtxo

/-- Two states with the same scalars, set keys, root order and record maps. -/
structure SameBound (first second : ResidualState) : Prop where
  emitted : first.emitted = second.emitted
  incentivePool : first.incentivePool = second.incentivePool
  spentCommit : first.spentCommit = second.spentCommit
  tagsCommit : first.tagsCommit = second.tagsCommit
  outPrimeCommit : first.outPrimeCommit = second.outPrimeCommit
  swapNonces : first.swapNonces.keys = second.swapNonces.keys
  accValues : first.accValues.keys = second.accValues.keys
  pqNull : first.pqNull.keys = second.pqNull.keys
  pqRoots : first.pqRoots.keys = second.pqRoots.keys
  cmRoots : first.cmRoots.keys = second.cmRoots.keys
  cmFinal : first.cmFinal.keys = second.cmFinal.keys
  zkNull : first.zkNull.keys = second.zkNull.keys
  referral : first.referral = second.referral
  pqIndex : first.pqIndex = second.pqIndex
  cmRootOrder : first.cmRootOrder = second.cmRootOrder
  swaps : first.swaps = second.swaps
  vaults : first.vaults = second.vaults
  pqUtxo : first.pqUtxo = second.pqUtxo

/-- The preimage parses in only one way. -/
theorem preimage_sameBound {first second : ResidualState} (sized : Representable first)
    (sized' : Representable second) (same : preimage first = preimage second) :
    SameBound first second := by
  have same : preimage first ++ [] = preimage second ++ [] := by rw [same]
  unfold preimage at same
  simp only [List.append_assoc] at same
  replace same := List.append_cancel_left (List.append_cancel_left same)
  obtain ⟨emitted, same⟩ := putWord_delimiting trivial trivial same
  obtain ⟨incentivePool, same⟩ := putWord_delimiting trivial trivial same
  rw [List.append_cancel_left_eq] at same
  obtain ⟨spentCommit, same⟩ := putCommit_delimiting trivial trivial same
  obtain ⟨tagsCommit, same⟩ := putCommit_delimiting trivial trivial same
  obtain ⟨outPrimeCommit, same⟩ := putCommit_delimiting trivial trivial same
  obtain ⟨swapNonces, same⟩ := keys_delimiting _ sized.swapNonces sized'.swapNonces same
  obtain ⟨accValues, same⟩ := keys_delimiting _ sized.accValues sized'.accValues same
  obtain ⟨pqNull, same⟩ := keys_delimiting _ sized.pqNull sized'.pqNull same
  obtain ⟨pqRoots, same⟩ := keys_delimiting _ sized.pqRoots sized'.pqRoots same
  obtain ⟨cmRoots, same⟩ := keys_delimiting _ sized.cmRoots sized'.cmRoots same
  obtain ⟨cmFinal, same⟩ := keys_delimiting _ sized.cmFinal sized'.cmFinal same
  obtain ⟨zkNull, same⟩ := keys_delimiting _ sized.zkNull sized'.zkNull same
  obtain ⟨referral, same⟩ :=
    putMap_delimiting _ putWord_delimiting sized.referral sized'.referral same
  obtain ⟨pqIndex, same⟩ :=
    putMap_delimiting _ putIndex_delimiting sized.pqIndex sized'.pqIndex same
  rw [List.append_cancel_left_eq] at same
  obtain ⟨cmRootOrder, same⟩ :=
    putList_delimiting putBytes_delimiting sized.cmRootOrder sized'.cmRootOrder same
  obtain ⟨swaps, same⟩ := putMap_delimiting _ putSwap_delimiting sized.swaps sized'.swaps same
  obtain ⟨vaults, same⟩ := putMap_delimiting _ putVault_delimiting sized.vaults sized'.vaults same
  obtain ⟨pqUtxo, _⟩ := putMap_delimiting _ putPQOutput_delimiting sized.pqUtxo sized'.pqUtxo same
  exact ⟨emitted, incentivePool, spentCommit, tagsCommit, outPrimeCommit, swapNonces, accValues,
    pqNull, pqRoots, cmRoots, cmFinal, zkNull, referral, pqIndex, cmRootOrder, swaps, vaults,
    pqUtxo⟩

end StateRoot

/-! ## The validator's view -/

open StateRoot

/-- A residual state as the snapshot decoder can produce it. -/
structure DecodedState where
  state : ResidualState
  representable : Representable state

/-- The answers to every query that validation makes of the residual state. -/
@[ext] structure Observation where
  emitted : UInt64
  incentivePool : UInt64
  zkNull : Bytes → Bool
  pqNull : Bytes → Bool
  swapNonces : Bytes → Bool
  cmRoots : Bytes → Bool
  pqRoots : Bytes → Bool
  referral : Bytes → Option UInt64
  pqIndex : Bytes → Option Int64
  swaps : Bytes → Option SwapEntry
  vaults : Bytes → Option VaultEntry
  pqUtxo : Bytes → Option PQOutput

/-- What the root is to bind. -/
def ResidualState.observe (c : ResidualState) : Observation where
  emitted := c.emitted
  incentivePool := c.incentivePool
  zkNull := inSet c.zkNull
  pqNull := inSet c.pqNull
  swapNonces := inSet c.swapNonces
  cmRoots := inSet c.cmRoots
  pqRoots := inSet c.pqRoots
  referral key := c.referral[key]?
  pqIndex key := c.pqIndex[key]?
  swaps key := c.swaps[key]?
  vaults key := c.vaults[key]?
  pqUtxo key := c.pqUtxo[key]?

/-- The boolean sets that validation queries. -/
def queriedSets : List (ResidualState → GoMap Bool) :=
  [ResidualState.zkNull, ResidualState.pqNull, ResidualState.swapNonces, ResidualState.cmRoots,
    ResidualState.pqRoots]

/-- The keys at which a boolean set holds the value false. -/
def falseKeys (set : GoMap Bool) : Set Bytes := { key | set[key]? = some false }

theorem inSet_eq_iff {first second : GoMap Bool} (keys : first.keys = second.keys) :
    inSet first = inSet second ↔ falseKeys first = falseKeys second := by
  have present : ∀ key : Bytes, first[key]?.isSome = second[key]?.isSome := by
    intro key
    have members : key ∈ first ↔ key ∈ second := by
      rw [← ExtTreeMap.mem_keys, ← ExtTreeMap.mem_keys, keys]
    rw [ExtTreeMap.mem_iff_isSome_getElem?, ExtTreeMap.mem_iff_isSome_getElem?] at members
    exact Bool.eq_iff_iff.mpr members
  constructor
  · intro same
    ext key
    have answer := congrFun same key
    have known := present key
    change first[key]? = some false ↔ second[key]? = some false
    simp only [inSet] at answer
    cases left : first[key]? <;> cases right : second[key]? <;> simp_all
  · intro same
    funext key
    have answer : first[key]? = some false ↔ second[key]? = some false :=
      Set.ext_iff.mp same key
    have known := present key
    simp only [inSet]
    cases left : first[key]? with
    | none => cases right : second[key]? <;> simp_all
    | some value => cases value <;> cases right : second[key]? <;> simp_all

/-- **State-root binding.** Decoded states with one state-root preimage answer
every query of the validator alike exactly when each queried boolean set holds
the value false at the same keys in both. -/
theorem observe_eq_iff_falseKeys (first second : DecodedState)
    (same : preimage first.state = preimage second.state) :
    first.state.observe = second.state.observe ↔
      ∀ set ∈ queriedSets, falseKeys (set first.state) = falseKeys (set second.state) := by
  have bound := preimage_sameBound first.representable second.representable same
  simp only [queriedSets, List.forall_mem_cons, List.not_mem_nil, false_implies, implies_true,
    and_true]
  rw [← inSet_eq_iff bound.zkNull, ← inSet_eq_iff bound.pqNull, ← inSet_eq_iff bound.swapNonces,
    ← inSet_eq_iff bound.cmRoots, ← inSet_eq_iff bound.pqRoots]
  constructor
  · intro observed
    exact ⟨congrArg Observation.zkNull observed, congrArg Observation.pqNull observed,
      congrArg Observation.swapNonces observed, congrArg Observation.cmRoots observed,
      congrArg Observation.pqRoots observed⟩
  · rintro ⟨zkNull, pqNull, swapNonces, cmRoots, pqRoots⟩
    apply Observation.ext
    · exact bound.emitted
    · exact bound.incentivePool
    · exact zkNull
    · exact pqNull
    · exact swapNonces
    · exact cmRoots
    · exact pqRoots
    · simp only [ResidualState.observe, bound.referral]
    · simp only [ResidualState.observe, bound.pqIndex]
    · simp only [ResidualState.observe, bound.swaps]
    · simp only [ResidualState.observe, bound.vaults]
    · simp only [ResidualState.observe, bound.pqUtxo]

/-- The residual state with nothing in it. -/
def ResidualState.empty : ResidualState where
  emitted := 0
  incentivePool := 0
  spentCommit := 0
  tagsCommit := 0
  outPrimeCommit := 0
  swapNonces := ∅
  accValues := ∅
  pqNull := ∅
  pqRoots := ∅
  cmRoots := ∅
  cmFinal := ∅
  zkNull := ∅
  referral := ∅
  pqIndex := ∅
  cmRootOrder := []
  swaps := ∅
  vaults := ∅
  pqUtxo := ∅

theorem sizedSet_singleton (key : Bytes) (value : Bool) (short : key.length < 2 ^ 64) :
    SizedSet ((∅ : GoMap Bool).insert key value) := by
  constructor
  · rw [ExtTreeMap.length_keys, ExtTreeMap.size_insert]
    simp
  · intro other member
    rw [ExtTreeMap.mem_keys, ExtTreeMap.mem_insert] at member
    rcases member with same | member
    · rw [LawfulEqOrd.compare_eq_iff_eq] at same
      exact same ▸ short
    · exact absurd member ExtTreeMap.not_mem_empty

/-- The empty state can be encoded. -/
theorem representable_empty : Representable .empty where
  swapNonces := ⟨by decide, by simp [ResidualState.empty]⟩
  accValues := ⟨by decide, by simp [ResidualState.empty]⟩
  pqNull := ⟨by decide, by simp [ResidualState.empty]⟩
  pqRoots := ⟨by decide, by simp [ResidualState.empty]⟩
  cmRoots := ⟨by decide, by simp [ResidualState.empty]⟩
  cmFinal := ⟨by decide, by simp [ResidualState.empty]⟩
  zkNull := ⟨by decide, by simp [ResidualState.empty]⟩
  referral := ⟨by decide, by simp [ResidualState.empty]⟩
  pqIndex := ⟨by decide, by simp [ResidualState.empty]⟩
  cmRootOrder := ⟨by decide, by simp [ResidualState.empty]⟩
  swaps := ⟨by decide, by simp [ResidualState.empty]⟩
  vaults := ⟨by decide, by simp [ResidualState.empty]⟩
  pqUtxo := ⟨by decide, by simp [ResidualState.empty]⟩

/-- A decoded state with one entry in the nullifier set. -/
def oneNullifier (value : Bool) : DecodedState where
  state := { ResidualState.empty with zkNull := (∅ : GoMap Bool).insert [1] value }
  representable := { representable_empty with zkNull := sizedSet_singleton [1] value (by decide) }

/-- A decoded state with one accumulator checkpoint. -/
def oneCheckpoint (value : Bool) : DecodedState where
  state := { ResidualState.empty with accValues := (∅ : GoMap Bool).insert [1] value }
  representable :=
    { representable_empty with accValues := sizedSet_singleton [1] value (by decide) }

/-- Two states with one preimage and one observation. -/
theorem oneCheckpoint_observe :
    preimage (oneCheckpoint true).state = preimage (oneCheckpoint false).state ∧
      (oneCheckpoint true).state.observe = (oneCheckpoint false).state.observe := by
  have same : preimage (oneCheckpoint true).state = preimage (oneCheckpoint false).state := by
    decide +kernel
  exact ⟨same, (observe_eq_iff_falseKeys _ _ same).mpr (by
    intro set member
    simp only [queriedSets, List.mem_cons, List.not_mem_nil, or_false] at member
    rcases member with rfl | rfl | rfl | rfl | rfl <;> rfl)⟩

/-- A nullifier recorded as false is hashed like one recorded as true, and is
read as unspent. -/
theorem preimage_ignores_values :
    ¬ ∀ first second : DecodedState, preimage first.state = preimage second.state →
      first.state.observe = second.state.observe := by
  intro binding
  have same : preimage (oneNullifier true).state = preimage (oneNullifier false).state := by
    decide +kernel
  have answer := congrFun (congrArg Observation.zkNull (binding _ _ same)) [1]
  revert answer
  decide

end Obscura
