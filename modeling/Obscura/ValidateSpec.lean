import Obscura.Validate

/-! # What an accepted transaction satisfies

One specification for each check of `validateTxLocked`. Each splits into the
rules that always run and the proofs that a cache hit leaves out; the proofs
depend on the state only through the records the item refers to.
-/

namespace Obscura

open Wire Tx Checked

theorem addU64_ok {a b result : UInt64} {overflow : String} :
    addU64 a b overflow = .ok result ↔ result.toNat = a.toNat + b.toNat := by
  have bound := result.toNat_lt
  have left := a.toNat_lt
  have right := b.toNat_lt
  simp only [addU64, reject_bind_ok, pure_ok, UInt64.lt_iff_toNat_lt, UInt64.toNat_add]
  constructor
  · rintro ⟨fits, rfl⟩
    rw [UInt64.toNat_add]
    omega
  · intro sum
    refine ⟨by omega, ?_⟩
    rw [← UInt64.toNat_inj, UInt64.toNat_add, sum]
    omega

section Items

variable {V : Primitives} {L : Ledger} {skip : Bool} {height : Nat} {ctx : Hash}

/-! ## Outputs -/

/-- The check of an output, as conditions. -/
theorem checkOutput_ok {seen : List Bytes} {o : Output} {result : Bytes × List Bytes} :
    checkOutput V L skip seen o = .ok result ↔
      (o.oneTimeKey.length = 32 ∧ o.txPubKey.length = 32 ∧ o.commitment.length = 32) ∧
      badPoint V o.oneTimeKey = false ∧
      (skip = false → V.verifyRangeBytes o.commitment o.rangeProof = true) ∧
      ∃ pb, V.hashToPrime o.oneTimeKey o.primeNonce = some pb ∧
        hexstr pb ∉ seen ∧ ascii "key:" ++ hexstr o.oneTimeKey ∉ seen ∧
        L.coins.coinByKey o.oneTimeKey = none ∧ L.outPrimes.has (hexstr pb) = false ∧
        result = (pb, hexstr pb :: (ascii "key:" ++ hexstr o.oneTimeKey) :: seen) := by
  unfold checkOutput
  simp only [bind_ok, reject_ok, orReject_ok, pure_ok, exists_const, not_or, ne_eq, not_not,
    Bool.not_eq_true, Bool.and_eq_false_iff, Bool.not_eq_false', Option.isSome_eq_false_iff,
    Option.isNone_iff_eq_none, eq_comm (a := result)]
  cases skip <;> simp

/-! ## Coin inputs -/

/-- What an input is to prove. -/
def InputProofs (V : Primitives) (ctx : Hash) (input : Input) (commitment : Bytes) : Prop :=
  V.verifyOwnership input.outputRef input.ownershipProof ctx = true ∧
    V.verifyValueEquality input.pseudoCommitment commitment input.equalityProof ctx = true ∧
    V.verifyKeyImage input.outputRef input.keyImage input.keyImageProof ctx = true

/-- The check of an input, as conditions. -/
theorem checkInput_ok {seen : List Bytes} {input : Input} {result : List Bytes} :
    checkInput V L skip height ctx seen input = .ok result ↔
      (input.outputRef.length = 32 ∧ input.pseudoCommitment.length = 32 ∧
        input.keyImage.length = 32) ∧
      hexstr input.outputRef ∉ seen ∧
      ∃ entry, L.utxoEntry input.outputRef = some entry ∧
        ¬ (entry.isCoinbase = true ∧ height < entry.height + Config.coinbaseMaturity) ∧
        entry.lockUntil.toNat ≤ height ∧
        (skip = false → InputProofs V ctx input entry.commitment) ∧
        ∃ nullifier, V.canonicalNullifier input.keyImage = some nullifier ∧
          hexstr nullifier ∉ seen ∧ L.tags.has (hexstr nullifier) = false ∧
          result = hexstr nullifier :: hexstr input.outputRef :: seen := by
  unfold checkInput InputProofs
  simp only [bind_ok, reject_ok, orReject_ok, pure_ok, exists_const, not_or, ne_eq, not_not,
    Bool.not_eq_true, Bool.and_eq_false_iff, Bool.not_eq_false', not_lt, eq_comm (a := result)]
  cases skip
  · simp only [Bool.false_eq_true, false_or, true_implies]
    constructor
    · rintro ⟨lengths, unseen, entry, found, mature, unlocked, owner, equal, nullifier, canonical,
        imageUnseen, untagged, image, rfl⟩
      exact ⟨lengths, unseen, entry, found, mature, unlocked, ⟨owner, equal, image⟩, nullifier,
        canonical, imageUnseen, untagged, rfl⟩
    · rintro ⟨lengths, unseen, entry, found, mature, unlocked, ⟨owner, equal, image⟩, nullifier,
        canonical, imageUnseen, untagged, rfl⟩
      exact ⟨lengths, unseen, entry, found, mature, unlocked, owner, equal, nullifier, canonical,
        imageUnseen, untagged, image, rfl⟩
  · simp

/-- What an anonymous input is to prove about its ring. -/
def AnonProofs (V : Primitives) (ctx : Hash) (input : AnonInput) (ring : List CoinInfo) : Prop :=
  V.verifyAnonSpendBytes (ring.map CoinInfo.key) (ring.map CoinInfo.commitment)
    input.pseudoCommitment input.tag input.proof ctx = true

theorem checkAnonInput_ok {seen : List Bytes} {input : AnonInput} {result : List Bytes} :
    checkAnonInput V L skip height ctx seen input = .ok result ↔
      (input.tag.length = 32 ∧ input.pseudoCommitment.length = 32) ∧
      ∃ nullifier, V.canonicalNullifier input.tag = some nullifier ∧
        hexstr nullifier ∉ seen ∧ L.tags.has (hexstr nullifier) = false ∧
        ∃ ring, L.poolMembers input.poolID.toNat height = some ring ∧
          (2 ≤ ring.length ∧ ring.length &&& (ring.length - 1) = 0) ∧
          (skip = false → AnonProofs V ctx input ring) ∧
          result = hexstr nullifier :: seen := by
  unfold checkAnonInput AnonProofs
  simp only [bind_ok, reject_ok, orReject_ok, pure_ok, exists_const, not_or, ne_eq, not_not,
    Bool.not_eq_true, Bool.and_eq_false_iff, Bool.not_eq_false', not_lt, eq_comm (a := result)]
  cases skip <;> simp

/-! ## Swap and vault inputs -/

/-- Which signature a swap input is to carry. -/
def SwapProofs (V : Primitives) (ctx : Hash) (input : SwapIn) (sw : SwapEntry) (sig : FullSig) :
    Prop :=
  if input.isRefund then
    V.verifyFull sw.refundKey ctx sig = true
  else
    V.claimBindingOK sig.R sw.claimR sw.claimT = true ∧ V.verifyFull sw.claimKey ctx sig = true

/-- The window in which a swap can be claimed, or the heights from which it can be
refunded. -/
def SwapWindow (height : Nat) (isRefund : Bool) (sw : SwapEntry) : Prop :=
  if isRefund then
    sw.unlockHeight.toNat ≤ height
  else
    Config.swapReorgMargin ≤ sw.unlockHeight.toNat ∧
      height ≤ sw.unlockHeight.toNat - Config.swapReorgMargin

theorem checkSwapPath_ok {input : SwapIn} {sw : SwapEntry} {sig : FullSig} {result : Unit} :
    checkSwapPath V skip height ctx sw sig input.isRefund = .ok result ↔
      SwapWindow height input.isRefund sw ∧ (skip = false → SwapProofs V ctx input sw sig) := by
  unfold checkSwapPath SwapWindow SwapProofs
  cases input.isRefund <;> cases skip <;>
    simp only [↓reduceIte, Bool.false_eq_true, bind_ok, reject_ok, exists_const, not_or, not_lt,
      Bool.not_eq_true, Bool.and_eq_false_iff, Bool.not_eq_false', Bool.true_eq_false,
      Bool.not_false, Bool.not_true, false_or, true_or, true_implies, false_implies, and_true,
      and_assoc]

/-- The check of a swap input, as conditions. -/
theorem checkSwapInput_ok {state result : List Bytes × UInt64} {input : SwapIn} :
    checkSwapInput V L skip height ctx state input = .ok result ↔
      input.swapKey.length = 32 ∧ ascii "swap:" ++ hexstr input.swapKey ∉ state.1 ∧
      ∃ sw, L.swaps[hexstr input.swapKey]? = some sw ∧
        ∃ sig, V.parseFullSig input.sig = some sig ∧
          SwapWindow height input.isRefund sw ∧
          (skip = false → SwapProofs V ctx input sw sig) ∧
          result.1 = (ascii "swap:" ++ hexstr input.swapKey) :: state.1 ∧
          result.2.toNat = state.2.toNat + sw.amount.toNat := by
  obtain ⟨seen, publicIn⟩ := state
  obtain ⟨seen', publicIn'⟩ := result
  unfold checkSwapInput
  simp only [bind_ok, reject_ok, orReject_ok, pure_ok, exists_const, not_not, checkSwapPath_ok,
    addU64_ok, Prod.mk.injEq, and_assoc, ne_eq]
  constructor
  · rintro ⟨length, unseen, sw, found, sig, parsed, window, proofs, amount, sum, rfl, rfl⟩
    exact ⟨length, unseen, sw, found, sig, parsed, window, proofs, rfl, sum⟩
  · rintro ⟨length, unseen, sw, found, sig, parsed, window, proofs, rfl, sum⟩
    exact ⟨length, unseen, sw, found, sig, parsed, window, proofs, publicIn', sum, rfl, rfl⟩

/-- The check of a vault claim, as conditions. -/
theorem checkVaultInput_ok {state result : List Bytes × UInt64} {input : VaultIn} :
    checkVaultInput V L skip height ctx state input = .ok result ↔
      input.vaultKey.length = 32 ∧ ascii "vaultin:" ++ hexstr input.vaultKey ∉ state.1 ∧
      ∃ v, L.vaults[hexstr input.vaultKey]? = some v ∧ v.maturity ≤ height ∧
        ∃ sig, V.parseFullSig input.sig = some sig ∧
          (skip = false → V.verifyFull v.ownerKey ctx sig = true) ∧
          (∃ cap, vaultYieldAt v height = some cap ∧ input.yield ≤ cap) ∧
          result.1 = (ascii "vaultin:" ++ hexstr input.vaultKey) :: state.1 ∧
          result.2.toNat = state.2.toNat + v.amount.toNat + input.yield.toNat := by
  obtain ⟨seen, publicIn⟩ := state
  obtain ⟨seen', publicIn'⟩ := result
  unfold checkVaultInput
  simp only [bind_ok, reject_ok, orReject_ok, pure_ok, exists_const, not_not, addU64_ok,
    Prod.mk.injEq, ne_eq, not_lt, Bool.not_eq_true, Bool.and_eq_false_iff,
    Bool.not_eq_false', UInt64.not_lt]
  constructor
  · rintro ⟨length, unseen, v, found, mature, sig, parsed, signed, cap, entitled, capped, middle,
      first, amount, second, rfl, rfl⟩
    refine ⟨length, unseen, v, found, mature, sig, parsed, ?_, ⟨cap, entitled, capped⟩, rfl, ?_⟩
    · rintro rfl
      simpa using signed
    · rw [second, first]
  · rintro ⟨length, unseen, v, found, mature, sig, parsed, signed, ⟨cap, entitled, capped⟩, rfl,
      sum⟩
    have bound := publicIn'.toNat_lt
    have fits : publicIn.toNat + v.amount.toNat < 2 ^ 64 := by omega
    refine ⟨length, unseen, v, found, mature, sig, parsed, ?_, cap, entitled, capped,
      publicIn + v.amount, ?_, publicIn', ?_, rfl, rfl⟩
    · cases skip with
      | false => exact Or.inr (signed rfl)
      | true => exact Or.inl rfl
    · rw [UInt64.toNat_add, Nat.mod_eq_of_lt fits]
    · rw [UInt64.toNat_add, Nat.mod_eq_of_lt fits, sum]

/-! ## Swap and vault outputs -/

/-- The key of a swap output is the sum of keys that both parties hold. -/
def SwapKeysOk (V : Primitives) (so : SwapOut) : Prop :=
  V.aggregateKeyVerified so.claimA so.claimB so.popA so.popB = some so.claimKey ∧
    badPoint V so.claimT = false ∧ V.pointDecodes so.claimR = true

theorem checkSwapKeys_ok {so : SwapOut} {result : Unit} :
    checkSwapKeys V so = .ok result ↔ SwapKeysOk V so := by
  unfold checkSwapKeys SwapKeysOk
  simp only [bind_ok, reject_ok, exists_const, ne_eq, not_not, Bool.not_eq_true,
    Bool.not_eq_false']

/-- The check of a swap output, as conditions. -/
theorem checkSwapOutput_ok {state result : List Bytes × UInt64} {so : SwapOut} :
    checkSwapOutput V L skip height state so = .ok result ↔
      (so.swapKey.length = 32 ∧ so.claimKey.length = 32 ∧ so.refundKey.length = 32 ∧
        so.claimA.length = 32 ∧ so.claimB.length = 32 ∧ so.claimR.length = 32 ∧
        so.claimT.length = 32) ∧
      (skip = false → SwapKeysOk V so) ∧
      (ascii "swapout:" ++ hexstr so.swapKey ∉ state.1 ∧ L.swaps[hexstr so.swapKey]? = none) ∧
      ascii "swapnonce:" ++ hexstr so.claimR ∉ state.1 ∧
      inSet L.swapNonces (hexstr so.claimR) = false ∧
      (so.amount ≠ 0 ∧ so.amount ≤ Config.moneySupplyCap) ∧
      height + Config.swapReorgMargin ≤ so.unlockHeight.toNat ∧
      result.1 = (ascii "swapnonce:" ++ hexstr so.claimR) ::
        (ascii "swapout:" ++ hexstr so.swapKey) :: state.1 ∧
      result.2.toNat = state.2.toNat + so.amount.toNat := by
  obtain ⟨seen, publicOut⟩ := state
  obtain ⟨seen', publicOut'⟩ := result
  unfold checkSwapOutput
  simp only [bind_ok, reject_ok, pure_ok, exists_const, not_or, ne_eq, not_not, skipping_ok,
    checkSwapKeys_ok, Bool.not_eq_true, Option.isSome_eq_false_iff, Option.isNone_iff_eq_none,
    not_lt, UInt64.not_lt, addU64_ok, Prod.mk.injEq]
  constructor
  · rintro ⟨lengths, keys, unregistered, unseen, unused, amount, window, sum, added, rfl, rfl⟩
    exact ⟨lengths, keys, unregistered, unseen, unused, amount, window, rfl, added⟩
  · rintro ⟨lengths, keys, unregistered, unseen, unused, amount, window, rfl, added⟩
    exact ⟨lengths, keys, unregistered, unseen, unused, amount, window, publicOut', added, rfl,
      rfl⟩

/-- The check of a vault output, as conditions. -/
theorem checkVaultOutput_ok {state result : List Bytes × UInt64} {vo : VaultOut} :
    checkVaultOutput V L state vo = .ok result ↔
      (vo.vaultKey.length = 32 ∧ vo.ownerKey.length = 32) ∧
      Config.vaultRateBps vo.term ≠ none ∧
      (vo.amount ≠ 0 ∧ vo.amount ≤ Config.moneySupplyCap) ∧
      (ascii "vaultout:" ++ hexstr vo.vaultKey ∉ state.1 ∧
        L.vaults[hexstr vo.vaultKey]? = none) ∧
      badPoint V vo.ownerKey = false ∧
      result.1 = (ascii "vaultout:" ++ hexstr vo.vaultKey) :: state.1 ∧
      result.2.toNat = state.2.toNat + vo.amount.toNat := by
  obtain ⟨seen, publicOut⟩ := state
  obtain ⟨seen', publicOut'⟩ := result
  unfold checkVaultOutput
  simp only [bind_ok, reject_ok, pure_ok, exists_const, not_or, ne_eq, not_not,
    Bool.not_eq_true, Option.isSome_eq_false_iff, Option.isNone_iff_eq_none, UInt64.not_lt,
    addU64_ok, Prod.mk.injEq]
  constructor
  · rintro ⟨lengths, rate, amount, unregistered, owner, sum, added, rfl, rfl⟩
    exact ⟨lengths, rate, amount, unregistered, owner, rfl, added⟩
  · rintro ⟨lengths, rate, amount, unregistered, owner, rfl, added⟩
    exact ⟨lengths, rate, amount, unregistered, owner, publicOut', added, rfl, rfl⟩

/-! ## ZK notes -/

/-- What a nullifier spend is to prove. -/
def ZKInputProof (V : Primitives) (bind : Bytes) (input : ZKInput) : Prop :=
  ∃ proof, V.unmarshalProof input.proof = .ok proof ∧
    V.verifyNfSpend input.amount input.anchor input.nullifier bind proof = true

/-- The check of a nullifier spend, as conditions. -/
theorem checkZKInput_ok {bind : Bytes} {state result : List Bytes × UInt64} {input : ZKInput} :
    checkZKInput V L skip bind state input = .ok result ↔
      (parseNode input.nullifier).isSome = true ∧ (parseNode input.anchor).isSome = true ∧
      input.amount ≤ Config.moneySupplyCap ∧
      ascii "zk:" ++ hexstr input.nullifier ∉ state.1 ∧
      inSet L.zkNull (hexstr input.nullifier) = false ∧
      inSet L.cmRoots (hexstr input.anchor) = true ∧
      (skip = false → ZKInputProof V bind input) ∧
      result.1 = (ascii "zk:" ++ hexstr input.nullifier) :: state.1 ∧
      result.2.toNat = state.2.toNat + input.amount.toNat := by
  obtain ⟨seen, publicIn⟩ := state
  obtain ⟨seen', publicIn'⟩ := result
  unfold checkZKInput ZKInputProof
  simp only [bind_ok, reject_ok, orReject_ok, pure_ok, exists_const, skipping_ok, mapError_ok,
    Bool.not_eq_true, Bool.not_eq_false', UInt64.not_lt, addU64_ok, Prod.mk.injEq]
  constructor
  · rintro ⟨nf, nfParsed, anchor, anchorParsed, amount, unseen, unspent, anchored, proved, sum,
      added, rfl, rfl⟩
    refine ⟨by rw [nfParsed]; rfl, by rw [anchorParsed]; rfl, amount, unseen, unspent, anchored,
      ?_, rfl, added⟩
    rw [← parseNode_eq nfParsed, ← parseNode_eq anchorParsed]
    exact proved
  · rintro ⟨nfParsed, anchorParsed, amount, unseen, unspent, anchored, proved, rfl, added⟩
    obtain ⟨nf, nfParsed⟩ := Option.isSome_iff_exists.mp nfParsed
    obtain ⟨anchor, anchorParsed⟩ := Option.isSome_iff_exists.mp anchorParsed
    refine ⟨nf, nfParsed, anchor, anchorParsed, amount, unseen, unspent, anchored, ?_, publicIn',
      added, rfl, rfl⟩
    rw [parseNode_eq nfParsed, parseNode_eq anchorParsed]
    exact proved

/-- What a mint is to prove. -/
def ZKOutputProof (V : Primitives) (bind : Bytes) (o : ZKOutput) : Prop :=
  ∃ proof, V.unmarshalProof o.mintProof = .ok proof ∧
    V.verifyNfMint o.amount o.leaf bind proof = true

/-- The check of a mint, as conditions. -/
theorem checkZKOutput_ok {bind : Bytes} {state result : UInt64} {o : ZKOutput} :
    checkZKOutput V skip bind state o = .ok result ↔
      (parseNode o.leaf).isSome = true ∧ o.amount ≤ Config.moneySupplyCap ∧
      (skip = false → ZKOutputProof V bind o) ∧
      result.toNat = state.toNat + o.amount.toNat := by
  unfold checkZKOutput ZKOutputProof
  simp only [bind_ok, reject_ok, orReject_ok, exists_const, skipping_ok, mapError_ok,
    Bool.not_eq_true, Bool.not_eq_false', UInt64.not_lt, addU64_ok]
  constructor
  · rintro ⟨leaf, parsed, amount, proved, added⟩
    refine ⟨by rw [parsed]; rfl, amount, ?_, added⟩
    rw [← parseNode_eq parsed]
    exact proved
  · rintro ⟨parsed, amount, proved, added⟩
    obtain ⟨leaf, parsed⟩ := Option.isSome_iff_exists.mp parsed
    refine ⟨leaf, parsed, amount, ?_, added⟩
    rw [parseNode_eq parsed]
    exact proved

/-- What a confidential spend is to prove. -/
def CZKProof (V : Primitives) (bind : Bytes) (s : CZKSpend) : Prop :=
  ∃ proof, V.unmarshalProof s.proof = .ok proof ∧
    V.verifyCnfSpend s.nullifier s.anchor s.leafOut s.fee bind proof = true

/-- The check of a confidential spend, as conditions. -/
theorem checkCZKSpend_ok {bind : Bytes} {state result : List Bytes × UInt64} {s : CZKSpend} :
    checkCZKSpend V L skip bind state s = .ok result ↔
      (parseNode s.nullifier).isSome = true ∧ (parseNode s.anchor).isSome = true ∧
      (parseNode s.leafOut).isSome = true ∧ s.fee.toNat < 2 ^ Config.confidentialBits ∧
      ascii "zk:" ++ hexstr s.nullifier ∉ state.1 ∧
      inSet L.zkNull (hexstr s.nullifier) = false ∧
      inSet L.cmRoots (hexstr s.anchor) = true ∧
      (skip = false → CZKProof V bind s) ∧
      result.1 = (ascii "zk:" ++ hexstr s.nullifier) :: state.1 ∧
      result.2.toNat = state.2.toNat + s.fee.toNat := by
  obtain ⟨seen, publicIn⟩ := state
  obtain ⟨seen', publicIn'⟩ := result
  unfold checkCZKSpend CZKProof
  simp only [bind_ok, reject_ok, orReject_ok, pure_ok, exists_const, skipping_ok, mapError_ok,
    Bool.not_eq_true, Bool.not_eq_false', not_le, addU64_ok, Prod.mk.injEq]
  constructor
  · rintro ⟨nf, nfParsed, anchor, anchorParsed, leaf, leafParsed, fee, unseen, unspent, anchored,
      proved, sum, added, rfl, rfl⟩
    refine ⟨by rw [nfParsed]; rfl, by rw [anchorParsed]; rfl, by rw [leafParsed]; rfl, fee, unseen,
      unspent, anchored, ?_, rfl, added⟩
    rw [← parseNode_eq nfParsed, ← parseNode_eq anchorParsed, ← parseNode_eq leafParsed]
    exact proved
  · rintro ⟨nfParsed, anchorParsed, leafParsed, fee, unseen, unspent, anchored, proved, rfl, added⟩
    obtain ⟨nf, nfParsed⟩ := Option.isSome_iff_exists.mp nfParsed
    obtain ⟨anchor, anchorParsed⟩ := Option.isSome_iff_exists.mp anchorParsed
    obtain ⟨leaf, leafParsed⟩ := Option.isSome_iff_exists.mp leafParsed
    refine ⟨nf, nfParsed, anchor, anchorParsed, leaf, leafParsed, fee, unseen, unspent, anchored,
      ?_, publicIn', added, rfl, rfl⟩
    rw [parseNode_eq nfParsed, parseNode_eq anchorParsed, parseNode_eq leafParsed]
    exact proved

end Items

/-! ## The value legs of a transaction -/

section Legs

/-- The dedup keys of a transaction's spends and contract registrations. -/
def spentKeys (V : Primitives) (t : Transaction) : List Bytes :=
  t.inputs.flatMap (fun input => [hexstr (recordedTag V input.keyImage)]) ++
    t.anonInputs.flatMap (fun input => [hexstr (recordedTag V input.tag)]) ++
    t.swapInputs.flatMap (fun input => [ascii "swap:" ++ hexstr input.swapKey]) ++
    t.vaultInputs.flatMap (fun input => [ascii "vaultin:" ++ hexstr input.vaultKey]) ++
    t.swapOutputs.flatMap (fun so =>
      [ascii "swapnonce:" ++ hexstr so.claimR, ascii "swapout:" ++ hexstr so.swapKey]) ++
    t.vaultOutputs.flatMap (fun vo => [ascii "vaultout:" ++ hexstr vo.vaultKey]) ++
    t.zkInputs.flatMap (fun input => [ascii "zk:" ++ hexstr input.nullifier]) ++
    t.czkSpends.flatMap fun s => [ascii "zk:" ++ hexstr s.nullifier]

/-- The dedup keys of an output with prime `pb`. -/
def outputKeys (V : Primitives) (o : Output) : List Bytes :=
  (V.hashToPrime o.oneTimeKey o.primeNonce).toList.flatMap fun pb =>
    [hexstr pb, ascii "key:" ++ hexstr o.oneTimeKey]

/-- The amount of the swap that an input spends, 0 for none. -/
def swapAmount (L : Ledger) (input : SwapIn) : Nat :=
  L.swaps[hexstr input.swapKey]?.elim 0 fun sw => sw.amount.toNat

/-- The amount of the vault that a claim empties, 0 for none. -/
def vaultPrincipal (L : Ledger) (input : VaultIn) : Nat :=
  L.vaults[hexstr input.vaultKey]?.elim 0 fun v => v.amount.toNat

/-- The public value entering a transaction. -/
def publicInOf (L : Ledger) (t : Transaction) : Nat :=
  (t.swapInputs.map (swapAmount L)).sum +
    (t.vaultInputs.map fun input => vaultPrincipal L input + input.yield.toNat).sum +
    (t.zkInputs.map fun input => input.amount.toNat).sum +
    (t.czkSpends.map fun s => s.fee.toNat).sum

/-- The public value leaving a transaction. -/
def publicOutOf (t : Transaction) : Nat :=
  t.fee.toNat + (t.swapOutputs.map fun so => so.amount.toNat).sum +
    (t.vaultOutputs.map fun vo => vo.amount.toNat).sum +
    (t.zkOutputs.map fun o => o.amount.toNat).sum

/-- The facts about each leg of an accepted transaction. -/
structure LegsAccepted (V : Primitives) (L : Ledger) (skip : Bool) (t : Transaction)
    (height : Nat) (seen : Seen) (primes : List Bytes) (next : Seen) : Prop where
  inputs : ∀ input ∈ t.inputs, input.keyImage.length = 32 ∧
    ∃ entry, L.utxoEntry input.outputRef = some entry ∧
      ¬ (entry.isCoinbase = true ∧ height < entry.height + Config.coinbaseMaturity) ∧
      entry.lockUntil.toNat ≤ height ∧
      (skip = false → InputProofs V (t.coreHash V) input entry.commitment) ∧
      ∃ nullifier, V.canonicalNullifier input.keyImage = some nullifier ∧
        L.tags.has (hexstr nullifier) = false
  anonInputs : ∀ input ∈ t.anonInputs,
    ∃ ring, L.poolMembers input.poolID.toNat height = some ring ∧
      (skip = false → AnonProofs V (t.coreHash V) input ring) ∧
      ∃ nullifier, V.canonicalNullifier input.tag = some nullifier ∧
        L.tags.has (hexstr nullifier) = false
  swapInputs : ∀ input ∈ t.swapInputs,
    ∃ sw, L.swaps[hexstr input.swapKey]? = some sw ∧ SwapWindow height input.isRefund sw
  vaultInputs : ∀ input ∈ t.vaultInputs, ∃ v, L.vaults[hexstr input.vaultKey]? = some v
  swapOutputs : ∀ so ∈ t.swapOutputs,
    L.swaps[hexstr so.swapKey]? = none ∧ inSet L.swapNonces (hexstr so.claimR) = false
  vaultOutputs : ∀ vo ∈ t.vaultOutputs, L.vaults[hexstr vo.vaultKey]? = none
  outputs : ∀ o ∈ t.outputs, L.coins.coinByKey o.oneTimeKey = none ∧
    (skip = false → V.verifyRangeBytes o.commitment o.rangeProof = true) ∧
    ∃ pb, V.hashToPrime o.oneTimeKey o.primeNonce = some pb ∧
      L.outPrimes.has (hexstr pb) = false
  zkInputs : ∀ input ∈ t.zkInputs, inSet L.zkNull (hexstr input.nullifier) = false ∧
    inSet L.cmRoots (hexstr input.anchor) = true ∧
    (skip = false → ZKInputProof V (t.coreHash V) input)
  zkOutputs : ∀ o ∈ t.zkOutputs, (parseNode o.leaf).isSome = true ∧
    (skip = false → ZKOutputProof V (t.coreHash V) o)
  czkSpends : ∀ s ∈ t.czkSpends, inSet L.zkNull (hexstr s.nullifier) = false ∧
    inSet L.cmRoots (hexstr s.anchor) = true ∧ (parseNode s.leafOut).isSome = true ∧
    (skip = false → CZKProof V (t.coreHash V) s)
  spent : Fresh seen.spent (spentKeys V t) next.spent
  refs : Fresh seen.spent (t.inputs.flatMap fun input => [hexstr input.outputRef]) next.spent
  prime : Fresh seen.prime (t.outputs.flatMap (outputKeys V)) next.prime
  primes : primes = t.outputs.filterMap fun o => V.hashToPrime o.oneTimeKey o.primeNonce
  conservation : skip = false → ∃ publicIn publicOut : UInt64,
    publicIn.toNat = publicInOf L t ∧ publicOut.toNat = publicOutOf t ∧
    V.verifyConservationGen (pseudoIns t) (commitmentList t.outputs) publicIn publicOut
      t.conservation (t.coreHash V) = true

variable {V : Primitives} {L : Ledger} {skip : Bool} {height : Nat} {ctx : Hash}

theorem recordedTag_of_canonical {tag nullifier : Bytes}
    (canonical : V.canonicalNullifier tag = some nullifier) : recordedTag V tag = nullifier := by
  rw [recordedTag, canonical]
  rfl

/-- The inputs record fresh tags. -/
theorem inputs_fresh {inputs : List Input} {seen next : List Bytes}
    (run : inputs.foldlM (checkInput V L skip height ctx) seen = .ok next) :
    Fresh seen (inputs.flatMap fun input => [hexstr (recordedTag V input.keyImage)]) next := by
  refine foldlM_fresh (fun seen => seen) _ ?_ run
  intro state input result accepted
  obtain ⟨_, _, _, _, _, _, _, nullifier, canonical, unseen, _, rfl⟩ := checkInput_ok.mp accepted
  rw [recordedTag_of_canonical canonical]
  exact .one unseen (by simp) (fun key member => by simp [member])

theorem refs_fresh {inputs : List Input} {seen next : List Bytes}
    (run : inputs.foldlM (checkInput V L skip height ctx) seen = .ok next) :
    Fresh seen (inputs.flatMap fun input => [hexstr input.outputRef]) next := by
  refine foldlM_fresh (fun seen => seen) _ ?_ run
  intro state input result accepted
  obtain ⟨_, unseen, _, _, _, _, _, _, _, _, _, rfl⟩ := checkInput_ok.mp accepted
  exact .one unseen (by simp) (fun key member => by simp [member])

/-- So do the anonymous inputs. -/
theorem anonInputs_fresh {inputs : List AnonInput} {seen next : List Bytes}
    (run : inputs.foldlM (checkAnonInput V L skip height ctx) seen = .ok next) :
    Fresh seen (inputs.flatMap fun input => [hexstr (recordedTag V input.tag)]) next := by
  refine foldlM_fresh (fun seen => seen) _ ?_ run
  intro state input result accepted
  obtain ⟨_, nullifier, canonical, unseen, _, _, _, _, _, rfl⟩ := checkAnonInput_ok.mp accepted
  rw [recordedTag_of_canonical canonical]
  exact .one unseen (by simp) (fun key member => by simp [member])

/-- The swap inputs record fresh keys. -/
theorem swapInputs_fresh {inputs : List SwapIn} {state next : List Bytes × UInt64}
    (run : inputs.foldlM (checkSwapInput V L skip height ctx) state = .ok next) :
    Fresh state.1 (inputs.flatMap fun input => [ascii "swap:" ++ hexstr input.swapKey])
      next.1 := by
  refine foldlM_fresh Prod.fst _ ?_ run
  intro state input result accepted
  obtain ⟨_, unseen, _, _, _, _, _, _, seen, _⟩ := checkSwapInput_ok.mp accepted
  rw [seen]
  exact .one unseen (by simp) (fun key member => by simp [member])

/-- So do the vault claims. -/
theorem vaultInputs_fresh {inputs : List VaultIn} {state next : List Bytes × UInt64}
    (run : inputs.foldlM (checkVaultInput V L skip height ctx) state = .ok next) :
    Fresh state.1 (inputs.flatMap fun input => [ascii "vaultin:" ++ hexstr input.vaultKey])
      next.1 := by
  refine foldlM_fresh Prod.fst _ ?_ run
  intro state input result accepted
  obtain ⟨_, unseen, _, _, _, _, _, _, _, seen, _⟩ := checkVaultInput_ok.mp accepted
  rw [seen]
  exact .one unseen (by simp) (fun key member => by simp [member])

theorem swapOutputs_fresh {outs : List SwapOut} {state next : List Bytes × UInt64}
    (run : outs.foldlM (checkSwapOutput V L skip height) state = .ok next) :
    Fresh state.1 (outs.flatMap fun so =>
      [ascii "swapnonce:" ++ hexstr so.claimR, ascii "swapout:" ++ hexstr so.swapKey])
      next.1 := by
  refine foldlM_fresh Prod.fst _ ?_ run
  intro state so result accepted
  obtain ⟨_, _, unregistered, unseen, _, _, _, seen, _⟩ := checkSwapOutput_ok.mp accepted
  rw [seen]
  refine .two ⟨unseen, unregistered.1⟩ ?_ (by simp) (fun key member => by simp [member])
  intro same
  have fifth := congrArg (fun bytes : Bytes => bytes[4]?) same
  revert fifth
  simp [ascii]

theorem vaultOutputs_fresh {outs : List VaultOut} {state next : List Bytes × UInt64}
    (run : outs.foldlM (checkVaultOutput V L) state = .ok next) :
    Fresh state.1 (outs.flatMap fun vo => [ascii "vaultout:" ++ hexstr vo.vaultKey])
      next.1 := by
  refine foldlM_fresh Prod.fst _ ?_ run
  intro state vo result accepted
  obtain ⟨_, _, _, unregistered, _, seen, _⟩ := checkVaultOutput_ok.mp accepted
  rw [seen]
  exact .one unregistered.1 (by simp) (fun key member => by simp [member])

theorem zkInputs_fresh {bind : Bytes} {inputs : List ZKInput} {state next : List Bytes × UInt64}
    (run : inputs.foldlM (checkZKInput V L skip bind) state = .ok next) :
    Fresh state.1 (inputs.flatMap fun input => [ascii "zk:" ++ hexstr input.nullifier])
      next.1 := by
  refine foldlM_fresh Prod.fst _ ?_ run
  intro state input result accepted
  obtain ⟨_, _, _, unseen, _, _, _, seen, _⟩ := checkZKInput_ok.mp accepted
  rw [seen]
  exact .one unseen (by simp) (fun key member => by simp [member])

theorem czkSpends_fresh {bind : Bytes} {spends : List CZKSpend}
    {state next : List Bytes × UInt64}
    (run : spends.foldlM (checkCZKSpend V L skip bind) state = .ok next) :
    Fresh state.1 (spends.flatMap fun s => [ascii "zk:" ++ hexstr s.nullifier]) next.1 := by
  refine foldlM_fresh Prod.fst _ ?_ run
  intro state s result accepted
  obtain ⟨_, _, _, _, unseen, _, _, _, seen, _⟩ := checkCZKSpend_ok.mp accepted
  rw [seen]
  exact .one unseen (by simp) (fun key member => by simp [member])

/-- A key's digits are no tagged key. -/
theorem hexstr_ne_tagged (bytes : Bytes) (rest : Bytes) :
    hexstr bytes ≠ ascii "key:" ++ rest := by
  cases bytes with
  | nil =>
    intro same
    have first := congrArg (fun bytes : Bytes => bytes[0]?) same
    revert first
    simp [ascii, hexstr]
  | cons byte bytes =>
    intro same
    have first : some (hexDigit (byte >>> 4)) = some 107 :=
      congrArg (fun bytes : Bytes => bytes[0]?) same
    have digits : ∀ value : Fin 256, hexDigit (UInt8.ofFin value >>> 4) ≠ 107 := by
      decide +kernel
    exact digits byte.toFin (Option.some.inj first)

/-- The loop of `checkOutputs` from any point. -/
theorem outputs_run {outs : List Output} {primes primes' : List Bytes} {seen next : List Bytes}
    (run : outs.foldlM (fun (state : List Bytes × List Bytes) o => do
      let (pb, seen) ← checkOutput V L skip state.2 o
      pure (state.1 ++ [pb], seen)) (primes, seen) = .ok (primes', next)) :
    Fresh seen (outs.flatMap (outputKeys V)) next ∧
      primes' = primes ++ outs.filterMap (fun o => V.hashToPrime o.oneTimeKey o.primeNonce) ∧
      ∀ o ∈ outs, L.coins.coinByKey o.oneTimeKey = none ∧
        (skip = false → V.verifyRangeBytes o.commitment o.rangeProof = true) ∧
        ∃ pb, V.hashToPrime o.oneTimeKey o.primeNonce = some pb ∧
          L.outPrimes.has (hexstr pb) = false := by
  induction outs generalizing primes seen with
  | nil =>
    simp only [List.foldlM_nil, pure_ok, Prod.mk.injEq] at run
    obtain ⟨rfl, rfl⟩ := run
    exact ⟨.nil (List.Subset.refl _), by simp, by simp⟩
  | cons o outs ih =>
    simp only [List.foldlM_cons, bind_ok, pure_ok, Prod.exists] at run
    obtain ⟨middle, seen₁, ⟨pb, seen₂, accepted, same⟩, rest⟩ := run
    obtain ⟨rfl, rfl⟩ := Prod.mk.inj same
    obtain ⟨_, _, range, pb', prime, primeNew, keyNew, absent, unused, result⟩ :=
      checkOutput_ok.mp accepted
    obtain ⟨rfl, rfl⟩ := Prod.mk.inj result
    obtain ⟨fresh, primesEq, facts⟩ := ih rest
    have head : Fresh seen (outputKeys V o)
        (hexstr pb :: (ascii "key:" ++ hexstr o.oneTimeKey) :: seen) := by
      rw [outputKeys, prime]
      exact .two ⟨primeNew, keyNew⟩ (hexstr_ne_tagged pb _) (by simp)
        (fun key member => by simp [member])
    refine ⟨?_, ?_, ?_⟩
    · rw [List.flatMap_cons]
      exact head.append fresh
    · rw [primesEq, List.filterMap_cons, prime]
      simp
    · intro other member
      rcases List.mem_cons.mp member with rfl | member
      · exact ⟨absent, range, pb, prime, unused⟩
      · exact facts other member

theorem swapInputs_sum {inputs : List SwapIn} {state next : List Bytes × UInt64}
    (run : inputs.foldlM (checkSwapInput V L skip height ctx) state = .ok next) :
    next.2.toNat = state.2.toNat + (inputs.map (swapAmount L)).sum := by
  refine foldlM_sum (fun state => state.2.toNat) _ ?_ run
  intro state input result accepted
  obtain ⟨_, _, sw, found, _, _, _, _, _, sum⟩ := checkSwapInput_ok.mp accepted
  rw [sum, swapAmount, found]
  rfl

theorem vaultInputs_sum {inputs : List VaultIn} {state next : List Bytes × UInt64}
    (run : inputs.foldlM (checkVaultInput V L skip height ctx) state = .ok next) :
    next.2.toNat = state.2.toNat +
      (inputs.map fun input => vaultPrincipal L input + input.yield.toNat).sum := by
  refine foldlM_sum (fun state => state.2.toNat) _ ?_ run
  intro state input result accepted
  obtain ⟨_, _, v, found, _, _, _, _, _, _, sum⟩ := checkVaultInput_ok.mp accepted
  rw [sum, vaultPrincipal, found, Nat.add_assoc]
  rfl

theorem publicIn_run {t : Transaction} {bind : Bytes} {seen₁ seen₂ seen₃ seen₄ seen₅ seen₆ : List Bytes}
    {swapIn vaultIn zkIn publicIn czkIn total : UInt64}
    (swaps : t.swapInputs.foldlM (checkSwapInput V L skip height ctx) (seen₁, 0) =
      .ok (seen₂, swapIn))
    (vaults : t.vaultInputs.foldlM (checkVaultInput V L skip height ctx) (seen₂, swapIn) =
      .ok (seen₃, vaultIn))
    (zks : t.zkInputs.foldlM (checkZKInput V L skip bind) (seen₄, 0) = .ok (seen₅, zkIn))
    (zkSum : publicIn.toNat = vaultIn.toNat + zkIn.toNat)
    (czks : t.czkSpends.foldlM (checkCZKSpend V L skip bind) (seen₅, 0) = .ok (seen₆, czkIn))
    (czkSum : total.toNat = publicIn.toNat + czkIn.toNat) : total.toNat = publicInOf L t := by
  have zk := foldlM_sum (fun state : List Bytes × UInt64 => state.2.toNat)
    (fun input : ZKInput => input.amount.toNat)
    (fun state input result accepted => (checkZKInput_ok.mp accepted).2.2.2.2.2.2.2.2) zks
  have czk := foldlM_sum (fun state : List Bytes × UInt64 => state.2.toNat)
    (fun s : CZKSpend => s.fee.toNat)
    (fun state s result accepted => (checkCZKSpend_ok.mp accepted).2.2.2.2.2.2.2.2.2) czks
  have swap := swapInputs_sum swaps
  have vault := vaultInputs_sum vaults
  simp only [UInt64.toNat_zero, Nat.zero_add] at zk czk swap
  rw [czkSum, zkSum, zk, czk, vault, swap, publicInOf]

theorem publicOut_run {t : Transaction} {bind : Bytes} {seen₁ seen₂ seen₃ : List Bytes}
    {swapOut vaultOut zkOut total : UInt64}
    (swaps : t.swapOutputs.foldlM (checkSwapOutput V L skip height) (seen₁, t.fee) =
      .ok (seen₂, swapOut))
    (vaults : t.vaultOutputs.foldlM (checkVaultOutput V L) (seen₂, swapOut) =
      .ok (seen₃, vaultOut))
    (zks : t.zkOutputs.foldlM (checkZKOutput V skip bind) 0 = .ok zkOut)
    (zkSum : total.toNat = vaultOut.toNat + zkOut.toNat) : total.toNat = publicOutOf t := by
  have zk := foldlM_sum (fun state : UInt64 => state.toNat)
    (fun o : ZKOutput => o.amount.toNat)
    (fun state o result accepted => (checkZKOutput_ok.mp accepted).2.2.2) zks
  have swap := foldlM_sum (fun state : List Bytes × UInt64 => state.2.toNat)
    (fun so : SwapOut => so.amount.toNat)
    (fun state so result accepted => (checkSwapOutput_ok.mp accepted).2.2.2.2.2.2.2.2) swaps
  have vault := foldlM_sum (fun state : List Bytes × UInt64 => state.2.toNat)
    (fun vo : VaultOut => vo.amount.toNat)
    (fun state vo result accepted => (checkVaultOutput_ok.mp accepted).2.2.2.2.2.2) vaults
  simp only [UInt64.toNat_zero, Nat.zero_add] at zk
  rw [zkSum, zk, vault, swap, publicOutOf]

/-- **Accepted legs.** What a successful pass over the legs of a transaction
establishes. -/
theorem validateLegs_accepted {t : Transaction} {seen next : Seen} {primes : List Bytes}
    (accepted : validateLegs V L skip t height seen = .ok (primes, next)) :
    LegsAccepted V L skip t height seen primes next := by
  unfold validateLegs validateZKInputsLocked validateZKOutputsLocked validateCZKSpendsLocked
    checkOutputs at accepted
  simp only [bind_ok, reject_ok, pure_ok, exists_const, Prod.exists, Prod.mk.injEq,
    addU64_ok] at accepted
  obtain ⟨spent₁, inputs, spent₂, anons, spent₃, in₁, swapIns, spent₄, in₂, vaultIns, spent₅, out₁,
    swapOuts, spent₆, out₂, vaultOuts, primes', prime', outputs, spent₇, zkIn, ⟨_, zkIns⟩, in₃,
    in₃Sum, zkOut, ⟨_, zkOuts⟩, out₃, out₃Sum, spent₈, czkIn, ⟨_, czks⟩, in₄, in₄Sum, conserved,
    rfl, rfl⟩ := accepted
  obtain ⟨primeFresh, primesEq, outputFacts⟩ := outputs_run outputs
  have inputFresh := inputs_fresh inputs
  have anonFresh := anonInputs_fresh anons
  have swapInFresh := swapInputs_fresh swapIns
  have vaultInFresh := vaultInputs_fresh vaultIns
  have swapOutFresh := swapOutputs_fresh swapOuts
  have vaultOutFresh := vaultOutputs_fresh vaultOuts
  have zkFresh := zkInputs_fresh zkIns
  have czkFresh := czkSpends_fresh czks
  have afterInputs := anonFresh.append (swapInFresh.append (vaultInFresh.append
    (swapOutFresh.append (vaultOutFresh.append (zkFresh.append czkFresh)))))
  constructor
  case inputs =>
    refine foldlM_forall _ ?_ inputs
    intro state input result accepted
    obtain ⟨lengths, _, entry, found, mature, unlocked, proofs, nullifier, canonical, _, untagged,
      _⟩ := checkInput_ok.mp accepted
    exact ⟨lengths.2.2, entry, found, mature, unlocked, proofs, nullifier, canonical, untagged⟩
  case anonInputs =>
    refine foldlM_forall _ ?_ anons
    intro state input result accepted
    obtain ⟨_, nullifier, canonical, _, untagged, ring, members, _, proofs, _⟩ :=
      checkAnonInput_ok.mp accepted
    exact ⟨ring, members, proofs, nullifier, canonical, untagged⟩
  case swapInputs =>
    refine foldlM_forall _ ?_ swapIns
    intro state input result accepted
    obtain ⟨_, _, sw, found, _, _, window, _⟩ := checkSwapInput_ok.mp accepted
    exact ⟨sw, found, window⟩
  case vaultInputs =>
    refine foldlM_forall _ ?_ vaultIns
    intro state input result accepted
    obtain ⟨_, _, v, found, _⟩ := checkVaultInput_ok.mp accepted
    exact ⟨v, found⟩
  case swapOutputs =>
    refine foldlM_forall _ ?_ swapOuts
    intro state so result accepted
    obtain ⟨_, _, unregistered, _, unused, _⟩ := checkSwapOutput_ok.mp accepted
    exact ⟨unregistered.2, unused⟩
  case vaultOutputs =>
    refine foldlM_forall _ ?_ vaultOuts
    intro state vo result accepted
    obtain ⟨_, _, _, unregistered, _⟩ := checkVaultOutput_ok.mp accepted
    exact unregistered.2
  case outputs => exact outputFacts
  case zkInputs =>
    refine foldlM_forall _ ?_ zkIns
    intro state input result accepted
    obtain ⟨_, _, _, _, unspent, anchored, proved, _⟩ := checkZKInput_ok.mp accepted
    exact ⟨unspent, anchored, proved⟩
  case zkOutputs =>
    refine foldlM_forall _ ?_ zkOuts
    intro state o result accepted
    obtain ⟨parsed, _, proved, _⟩ := checkZKOutput_ok.mp accepted
    exact ⟨parsed, proved⟩
  case czkSpends =>
    refine foldlM_forall _ ?_ czks
    intro state s result accepted
    obtain ⟨_, _, parsed, _, _, unspent, anchored, proved, _⟩ := checkCZKSpend_ok.mp accepted
    exact ⟨unspent, anchored, parsed, proved⟩
  case spent =>
    simpa only [spentKeys, List.append_assoc] using inputFresh.append afterInputs
  case refs => exact (refs_fresh inputs).weaken afterInputs.kept
  case prime => exact primeFresh
  case primes => simpa using primesEq
  case conservation =>
    intro verified
    exact ⟨in₄, out₃, publicIn_run swapIns vaultIns zkIns in₃Sum czks in₄Sum,
      publicOut_run swapOuts vaultOuts zkOuts out₃Sum, by simpa [verified] using conserved⟩

end Legs

end Obscura
