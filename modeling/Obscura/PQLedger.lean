import Obscura.ApplySpec
import Obscura.MembershipProofs
import Obscura.RootMemo

/-! # The post-quantum value space

Post-quantum outputs have public amounts and live in maps of their own. This module says what
block validation establishes of the post-quantum transactions of a block
(`PQBlock`), on any state and whatever the other transactions are, and what applying a block
does to the post-quantum part of the state (`applyBlock_pqView`). Everything else that a block
does leaves that part alone.
-/

namespace Obscura

open Wire Tx Checked

/-! ## The post-quantum part of the state -/

/-- The post-quantum part of a ledger. -/
structure PQView where
  acc : PQAccum.Accumulator
  index : GoMap Int64
  utxo : GoMap PQOutput
  roots : GoMap Bool

/-- The post-quantum part of this ledger. -/
def Ledger.pqView (L : Ledger) : PQView := ⟨L.pqAcc, L.pqIndex, L.pqUtxo, L.pqRoots⟩

/-- A serialized membership proof of an output, `PQProve`. -/
def Ledger.pqProve (V : Primitives) (L : Ledger) (oneTimeKey : Bytes) : Except String Bytes := do
  let idx ← orReject L.pqIndex[hexstr oneTimeKey]? (invalid "unknown pq output")
  let p ← L.pqAcc.prove V idx.toInt
  pure p.marshal

/-- The outputs a list of transactions spends, in order. -/
def pqRefsFromTxs (txs : List Transaction) : List Bytes :=
  txs.flatMap fun t => t.pqInputs.map PQInput.outputRef

/-- What a transaction burns in the post-quantum space, and what it pays in the classical. -/
def pqFee (t : Transaction) : Nat := if hasPQ t then t.fee.toNat else 0

/-- The fee that classical inputs pay; a transaction with post-quantum parts pays it from those.
-/
def classicalFee (t : Transaction) : Nat := if hasPQ t then 0 else t.fee.toNat

/-- The amount of an unspent output. -/
def pqAmount (utxo : GoMap PQOutput) (key : Bytes) : Nat :=
  utxo[key]?.elim 0 fun o => o.amount.toNat

namespace PQView

variable (V : Primitives)

/-- What is kept of an output. -/
def entry (o : PQOutput) : Bytes × PQOutput :=
  (hexstr o.oneTimeKey, { oneTimeKey := o.oneTimeKey, amount := o.amount })

/-- An output created: its key is accumulated and the output is listed as unspent. -/
def addOutput (v : PQView) (o : PQOutput) : PQView :=
  { v with
    acc := v.acc.add V o.oneTimeKey
    index := v.index.insert (hexstr o.oneTimeKey) (Int64.ofNat v.acc.len)
    utxo := v.utxo.insert (entry o).1 (entry o).2 }

/-- The root of a set that is not empty is recorded. -/
def recordRoot (v : PQView) : PQView :=
  if 0 < v.acc.len then { v with roots := v.roots.insert (hexstr (v.acc.root V)) true } else v

theorem recordRoot_frame (v : PQView) :
    (v.recordRoot V).acc = v.acc ∧ (v.recordRoot V).utxo = v.utxo := by
  unfold recordRoot
  split_ifs
  · exact ⟨rfl, rfl⟩
  · exact ⟨rfl, rfl⟩

/-- The outputs that are named are no longer listed. -/
def spend (v : PQView) (refs : List Bytes) : PQView :=
  { v with utxo := OrdMap.eraseAll v.utxo (refs.map hexstr) }

end PQView

/-! ## Applying -/

section Apply

variable {V : Primitives} {L L' : Ledger} {b : Block}

theorem applyOutput_pqView {height : Nat} {entry : Bool × Output}
    (run : applyOutput V height L entry = .ok L') : L'.pqView = L.pqView := by
  obtain ⟨isCoinbase, o⟩ := entry
  unfold applyOutput at run
  dsimp only at run
  cases prime : V.hashToPrime o.oneTimeKey o.primeNonce with
  | none =>
    rw [prime] at run
    rw [← Except.ok.inj run]
  | some pb =>
    rw [prime] at run
    dsimp only at run
    split_ifs at run
    rw [← Except.ok.inj run]
    rfl

theorem applyLeaves_pqView (txs : List Transaction) (L : Ledger) :
    (applyLeaves V txs L).pqView = L.pqView := by
  rw [applyLeaves_frame]
  rfl

theorem applyPQOutput_pqView {o : PQOutput} (run : applyPQOutput V L o = .ok L') :
    L'.pqView = L.pqView.addOutput V o := by
  unfold applyPQOutput at run
  dsimp only at run
  split_ifs at run
  rw [← Except.ok.inj run]
  rfl

theorem applyPQOutputs_pqView {outs : List PQOutput}
    (run : outs.foldlM (applyPQOutput V) L = .ok L') :
    L'.pqView = outs.foldl (PQView.addOutput V) L.pqView := by
  induction outs generalizing L with
  | nil =>
    rw [List.foldlM_nil, pure_ok] at run
    rw [run]
    rfl
  | cons o outs ih =>
    rw [List.foldlM_cons, bind_ok] at run
    obtain ⟨middle, first, rest⟩ := run
    rw [ih rest, applyPQOutput_pqView first]
    rfl

theorem recordPQRoot_pqView (L : Ledger) :
    (recordPQRoot V L).pqView = L.pqView.recordRoot V := by
  unfold recordPQRoot PQView.recordRoot
  change (if 0 < L.pqAcc.len then _ else L).pqView = if 0 < L.pqAcc.len then _ else L.pqView
  split_ifs
  · rfl
  · rfl

theorem foldl_pqView {α : Type} {step : Ledger → α → Ledger}
    (kept : ∀ L value, (step L value).pqView = L.pqView) (values : List α) (L : Ledger) :
    (values.foldl step L).pqView = L.pqView := by
  induction values generalizing L with
  | nil => rfl
  | cons value values ih => exact (ih (step L value)).trans (kept L value)

theorem applyInput_pqView (L : Ledger) (input : Input) :
    (applyInput V L input).pqView = L.pqView := by
  unfold applyInput
  dsimp only
  split_ifs
  · rfl
  · rfl

theorem applySpends_pqView (L : Ledger) {t : Transaction}
    (regular : t.isCoinbase = true → t.pqInputs = []) :
    (applySpends V L t).pqView = L.pqView.spend (t.pqInputs.map PQInput.outputRef) := by
  unfold applySpends
  by_cases coinbase : t.isCoinbase = true
  · rw [if_pos coinbase, regular coinbase]
    rfl
  · rw [if_neg coinbase]
    have inputs : (t.anonInputs.foldl (fun L input => applyTag V L (recordedTag V input.tag))
        (t.inputs.foldl (applyInput V) L)).pqView = L.pqView :=
      (@foldl_pqView _ (fun L (input : AnonInput) => applyTag V L (recordedTag V input.tag))
        (fun _ _ => rfl) _ _).trans (foldl_pqView applyInput_pqView _ _)
    unfold PQView.spend
    rw [List.map_map, ← inputs]
    rfl

theorem applyVaultInput_pqView (L : Ledger) (input : VaultIn) :
    (applyVaultInput L input).pqView = L.pqView := by
  unfold applyVaultInput
  dsimp only
  by_cases closed : L.vaults[hexstr input.vaultKey]?.isNone = true
  · rw [if_pos closed]
  · rw [if_neg closed]
    rfl

theorem applyVaults_pqView (height : Nat) (L : Ledger) (t : Transaction) :
    (applyVaults height L t).pqView = L.pqView := by
  unfold applyVaults
  split_ifs
  · rfl
  · exact (@foldl_pqView _ (applyVaultOutput height) (fun _ _ => rfl) _ _).trans
      (foldl_pqView applyVaultInput_pqView _ _)

theorem applyEconomics_pqView (height : Nat) (tag : Bytes) (L : Ledger) :
    (applyEconomics height tag L).pqView = L.pqView := by
  unfold applyEconomics
  split_ifs
  · rfl
  · rfl

theorem spends_pqView {txs : List Transaction} (L : Ledger)
    (regular : ∀ t ∈ txs, t.isCoinbase = true → t.pqInputs = []) :
    (txs.foldl (applySpends V) L).pqView = L.pqView.spend (pqRefsFromTxs txs) := by
  induction txs generalizing L with
  | nil => rfl
  | cons t txs ih =>
    rw [List.foldl_cons, ih _ fun t' member => regular t' (List.mem_cons_of_mem _ member),
      applySpends_pqView L (regular t List.mem_cons_self)]
    change PQView.mk _ _ (OrdMap.eraseAll (OrdMap.eraseAll _ _) _) _ =
      PQView.mk _ _ (OrdMap.eraseAll _ ((_ ++ pqRefsFromTxs txs).map hexstr)) _
    rw [List.map_append, OrdMap.eraseAll_append]
    rfl

theorem settleBlock_pqView {cb : Transaction} (L : Ledger) :
    (settleBlock V b cb L).pqView =
      (b.txs.foldl (applySpends V) (recordPQRoot V L)).pqView := by
  have funded : (spendAndFund V b L).pqView =
      (b.txs.foldl (applySpends V) (recordPQRoot V L)).pqView :=
    @foldl_pqView _ applySwapOutput (fun _ _ => rfl) _ _
  have vaults := foldl_pqView (applyVaults_pqView b.header.height) b.txs (spendAndFund V b L)
  exact (applyEconomics_pqView b.header.height cb.referrerTag _).trans (vaults.trans funded)

theorem applyBlock_pqView (regular : ∀ t ∈ b.txs, t.isCoinbase = true → t.pqInputs = [])
    (run : applyBlock V L b = (none, L')) :
    L'.pqView = (((b.txs.flatMap Transaction.pqOutputs).foldl (PQView.addOutput V)
      L.pqView).recordRoot V).spend (pqRefsFromTxs b.txs) := by
  unfold applyBlock at run
  cases head : b.txs.head? with
  | none =>
    rw [head] at run
    exact absurd (congrArg Prod.fst run) nofun
  | some cb =>
    rw [head] at run
    dsimp only at run
    by_cases plain : (!cb.isCoinbase) = true
    · rw [if_pos plain] at run
      exact absurd (congrArg Prod.fst run) nofun
    rw [if_neg plain] at run
    cases first : runUntil (applyOutput V b.header.height) L (outputsOf b.txs) with
    | mk failed L₁ =>
      rw [first] at run
      cases failed with
      | some error => exact absurd (congrArg Prod.fst run) nofun
      | none =>
        dsimp only at run
        cases second : runUntil (applyPQOutput V)
            (applyLeaves V b.txs (applyAccumulator V b.txs L₁))
            (b.txs.flatMap Transaction.pqOutputs) with
        | mk failed L₂ =>
          rw [second] at run
          cases failed with
          | some error => exact absurd (congrArg Prod.fst run) nofun
          | none =>
            have outputs : L₁.pqView = L.pqView :=
              foldlM_invariant (fun M : Ledger => M.pqView = L.pqView)
                (fun _ _ _ kept step => (applyOutput_pqView step).trans kept)
                (runUntil_none.mp first) rfl
            have leaves : (applyLeaves V b.txs (applyAccumulator V b.txs L₁)).pqView =
                L.pqView := by
              rw [applyLeaves_pqView]
              exact outputs
            have added := applyPQOutputs_pqView (runUntil_none.mp second)
            rw [leaves] at added
            rw [← added, ← recordPQRoot_pqView, ← spends_pqView _ regular,
              ← (Prod.mk.inj run).2]
            exact settleBlock_pqView L₂

end Apply

/-! ## Validating -/

section Validate

variable {V : Primitives} {L : Ledger}

/-- The keys the block-wide sets hold for the spends and for the outputs. -/
def pqRefKeys (t : Transaction) : List Bytes :=
  t.pqInputs.flatMap fun input => [hexstr input.outputRef]

/-- The keys under which a pool reserves the outputs of a transaction. -/
def pqOutputKeys (t : Transaction) : List Bytes :=
  t.pqOutputs.flatMap fun o => [ascii "pqkey:" ++ hexstr o.oneTimeKey]

/-- What validation establishes of the post-quantum legs of a transaction. -/
structure PQLegs (L : Ledger) (t : Transaction) : Prop where
  unspent : ∀ input ∈ t.pqInputs, L.pqUtxo[hexstr input.outputRef]? ≠ none
  new : ∀ o ∈ t.pqOutputs, L.pqIndex[hexstr o.oneTimeKey]? = none
  balance : (t.pqInputs.map fun input => pqAmount L.pqUtxo (hexstr input.outputRef)).sum =
    (t.pqOutputs.map fun o => o.amount.toNat).sum + pqFee t

/-- What the check of an input says. -/
theorem checkPQInput_ok {ctx : Hash} {state next : List Bytes × UInt64} {input : PQInput}
    (accepted : checkPQInput V L ctx state input = .ok next) :
    Fresh state.1 [hexstr input.outputRef] next.1 ∧
      L.pqUtxo[hexstr input.outputRef]? ≠ none ∧
      next.2.toNat = state.2.toNat + pqAmount L.pqUtxo (hexstr input.outputRef) := by
  unfold checkPQInput at accepted
  simp only [bind_ok, reject_ok, orReject_ok, exists_const, pure_ok, addU64_ok] at accepted
  obtain ⟨-, unseen, o, found, -, -, -, -, -, -, -, -, -, -, -, inSum, sum, rfl⟩ := accepted
  refine ⟨.one unseen (by simp) (fun key member => by simp [member]), ?_, ?_⟩
  · rw [found]
    exact Option.some_ne_none o
  · rw [pqAmount, found]
    exact sum

theorem checkPQOutput_ok {seen next : List Bytes} {o : PQOutput}
    (accepted : checkPQOutput L seen o = .ok next) :
    Fresh seen [ascii "pqkey:" ++ hexstr o.oneTimeKey] next ∧
      L.pqIndex[hexstr o.oneTimeKey]? = none := by
  unfold checkPQOutput at accepted
  simp only [bind_ok, reject_ok, exists_const, pure_ok] at accepted
  obtain ⟨-, -, -, -, unseen, new, rfl⟩ := accepted
  refine ⟨.one unseen (by simp) (fun key member => by simp [member]), ?_⟩
  exact Option.not_isSome_iff_eq_none.mp new

/-- What the check of a transaction says. -/
theorem validatePQTx_ok {t : Transaction} {seen next : Seen} (pq : hasPQ t = true)
    (accepted : validatePQTxLocked V L t seen = .ok next) :
    PQLegs L t ∧ Fresh seen.spent (pqRefKeys t) next.spent ∧
      Fresh seen.prime (pqOutputKeys t) next.prime := by
  unfold validatePQTxLocked at accepted
  simp only [bind_ok, reject_ok, exists_const, Prod.exists, pure_ok, addU64_ok, ne_eq,
    not_not] at accepted
  obtain ⟨-, -, -, -, -, -, -, -, spent, inSum, inputs, prime, outSum, outputs, total, sum, same,
    rfl⟩ := accepted
  have inputSum := foldlM_sum (fun state : List Bytes × UInt64 => state.2.toNat)
    (fun input : PQInput => pqAmount L.pqUtxo (hexstr input.outputRef))
    (fun _ _ _ step => (checkPQInput_ok step).2.2) inputs
  have outputStep : ∀ (state : List Bytes × UInt64) (o : PQOutput) (next : List Bytes × UInt64),
      (do
        let prime ← checkPQOutput L state.1 o
        let outSum ← addU64 state.2 o.amount "pq output sum overflow"
        pure (prime, outSum)) = Except.ok next →
      (Fresh state.1 [ascii "pqkey:" ++ hexstr o.oneTimeKey] next.1 ∧
        L.pqIndex[hexstr o.oneTimeKey]? = none) ∧
      next.2.toNat = state.2.toNat + o.amount.toNat := by
    intro state o next step
    simp only [bind_ok, pure_ok, addU64_ok] at step
    obtain ⟨prime, checked, outSum, sum, rfl⟩ := step
    exact ⟨checkPQOutput_ok checked, sum⟩
  have outputSum := foldlM_sum (fun state : List Bytes × UInt64 => state.2.toNat)
    (fun o : PQOutput => o.amount.toNat) (fun _ _ _ step => (outputStep _ _ _ step).2) outputs
  refine ⟨⟨?_, ?_, ?_⟩, ?_, ?_⟩
  · exact foldlM_forall (fun input : PQInput => L.pqUtxo[hexstr input.outputRef]? ≠ none)
      (fun _ _ _ step => (checkPQInput_ok step).2.1) inputs
  · exact foldlM_forall (fun o : PQOutput => L.pqIndex[hexstr o.oneTimeKey]? = none)
      (fun _ _ _ step => (outputStep _ _ _ step).1.2) outputs
  · rw [pqFee, if_pos pq]
    rw [UInt64.toNat_zero, Nat.zero_add] at inputSum outputSum
    rw [← inputSum, ← outputSum, same, sum]
  · exact foldlM_fresh (fun state : List Bytes × UInt64 => state.1)
      (fun input : PQInput => [hexstr input.outputRef])
      (fun _ _ _ step => (checkPQInput_ok step).1) inputs
  · exact foldlM_fresh (fun state : List Bytes × UInt64 => state.1)
      (fun o : PQOutput => [ascii "pqkey:" ++ hexstr o.oneTimeKey])
      (fun _ _ _ step => (outputStep _ _ _ step).1.1) outputs

/-- A transaction of a block, post-quantum or not. -/
theorem tallyTx_pq {skip : Transaction → Bool} {b : Block} {tally next : TxTally}
    {t : Transaction} (accepted : tallyTx V skip L b tally t = .ok next) :
    t.isCoinbase = false ∧ PQLegs L t ∧
      Fresh tally.seen.spent (pqRefKeys t) next.seen.spent ∧
      Fresh tally.seen.prime (pqOutputKeys t) next.seen.prime ∧
      next.fees.toNat = tally.fees.toNat + classicalFee t := by
  unfold tallyTx at accepted
  simp only [bind_ok, mapError_ok, Prod.exists] at accepted
  obtain ⟨primes, seen, valid, accepted⟩ := accepted
  unfold validateTxLocked at valid
  simp only [bind_ok, reject_ok, exists_const, Bool.not_eq_true] at valid
  obtain ⟨notCoinbase, valid⟩ := valid
  cases pq : hasPQ t with
  | true =>
    simp only [pq, ↓reduceIte, bind_ok, pure_ok, Prod.mk.injEq] at valid accepted
    obtain ⟨after, checked, -, rfl⟩ := valid
    obtain rfl := accepted
    obtain ⟨legs, refs, keys⟩ := validatePQTx_ok pq checked
    refine ⟨notCoinbase, legs, refs, keys, ?_⟩
    rw [classicalFee, if_pos pq]
    rfl
  | false =>
    simp only [pq, Bool.false_eq_true, ↓reduceIte, bind_ok, pure_ok, addU64_ok] at valid accepted
    obtain ⟨-, -, checked⟩ := valid
    obtain ⟨fees, sum, rfl⟩ := accepted
    have legs := validateLegs_accepted checked
    have none : t.pqInputs = [] ∧ t.pqOutputs = [] := by simpa [hasPQ] using pq
    refine ⟨notCoinbase, ⟨?_, ?_, ?_⟩, ?_, ?_, ?_⟩
    · rw [none.1]
      exact fun _ member => absurd member List.not_mem_nil
    · rw [none.2]
      exact fun _ member => absurd member List.not_mem_nil
    · rw [none.1, none.2, pqFee, pq]
      rfl
    · rw [pqRefKeys, none.1]
      exact .nil legs.spent.kept
    · rw [pqOutputKeys, none.2]
      exact .nil legs.prime.kept
    · rw [classicalFee, pq]
      exact sum

/-! ### A block -/

section Block

variable {skip : Transaction → Bool} {now : Int} {b : Block} {root : Hash}

variable (V L) in
/-- The checks of the roots, with the root of the state as the node holds it. -/
def checkRootsAt (b : Block) (root : Hash) (primes : List Bytes) : Check Unit := do
  let h := b.header
  reject (V.groupExp L.acc.value (primes.map ofBigEndian).prod ≠ h.accValue)
    (invalid "accumulator checkpoint mismatch")
  reject (h.accSize ≠ L.acc.size + primes.length) (invalid "accumulator size mismatch")
  reject (L.pqAcc.rootAfter V (pqKeysFromTxs b.txs) ≠ h.pqAccRoot)
    (invalid "pq accumulator root mismatch")
  reject (L.nullAcc.rootAfter V (blockTagsFromTxs V b.txs) ≠ h.nullRoot)
    (invalid "nullifier root mismatch")
  reject (L.cmTree.rootAfter V (cmLeavesFromTxs b.txs) ≠ h.cmRoot)
    (invalid "commitment-tree root mismatch")
  reject (root ≠ h.stateRoot) (invalid "state-root mismatch")

variable (V skip now L b root) in
/-- Block validation with the root of the state as the node holds it. -/
def validateBlockAt : Check Unit := do
  let tip ← orReject L.tip? "runtime error: index out of range [-1]"
  checkHeader V now L b tip
  let cb ← checkTxList V b
  let (primes, prime) ← checkOutputs V L false [] cb.outputs
  checkCoinbaseLegs cb
  let tally ← b.txs.tail.foldlM (tallyTx V skip L b) ⟨primes, ⟨[], prime⟩, 0⟩
  checkVaultYields L b
  checkCoinbase V L b cb tally.fees
  reject (merkleRoot V b.txs ≠ b.header.merkleRoot) (invalid "merkle root mismatch")
  validatePoRLocked V L b
  checkRootsAt V L b root tally.primes

theorem validateBlockAt_stateRoot :
    validateBlockAt V L skip now b (L.stateRoot V) = validateBlockLocked V skip now L b :=
  rfl

/-- What validation establishes of the post-quantum side of a block. -/
structure PQBlock (L : Ledger) (b : Block) : Prop where
  regular : ∀ t ∈ b.txs, t.isCoinbase = true → t.pqInputs = []
  unspent : ∀ ref ∈ pqRefsFromTxs b.txs, L.pqUtxo[hexstr ref]? ≠ none
  new : ∀ o ∈ b.txs.flatMap Transaction.pqOutputs, L.pqIndex[hexstr o.oneTimeKey]? = none
  refs : (pqRefsFromTxs b.txs).Nodup
  keys : ((b.txs.flatMap Transaction.pqOutputs).map PQOutput.oneTimeKey).Nodup
  balance : ((pqRefsFromTxs b.txs).map fun ref => pqAmount L.pqUtxo (hexstr ref)).sum =
    ((b.txs.flatMap Transaction.pqOutputs).map fun o => o.amount.toNat).sum +
      (b.txs.map pqFee).sum
  minted : ∃ cb, b.txs.head? = some cb ∧
    cb.minted.toNat + (L.blockEconomics cb.referrerTag).2.1.toNat =
      (L.blockEconomics cb.referrerTag).1.toNat + (b.txs.tail.map classicalFee).sum

theorem PQLegs.sum {txs : List Transaction} (legs : ∀ t ∈ txs, PQLegs L t) :
    ((pqRefsFromTxs txs).map fun ref => pqAmount L.pqUtxo (hexstr ref)).sum =
      ((txs.flatMap Transaction.pqOutputs).map fun o => o.amount.toNat).sum +
        (txs.map pqFee).sum := by
  induction txs with
  | nil => rfl
  | cons t txs ih =>
    have here := (legs t List.mem_cons_self).balance
    have rest := ih fun t' member => legs t' (List.mem_cons_of_mem _ member)
    change ((t.pqInputs.map PQInput.outputRef ++ pqRefsFromTxs txs).map _).sum = _
    rw [List.map_append, List.sum_append, List.map_map, rest, List.flatMap_cons,
      List.map_append, List.sum_append, List.map_cons, List.sum_cons]
    change (t.pqInputs.map fun input => pqAmount L.pqUtxo (hexstr input.outputRef)).sum + _ = _
    omega

/-- What an accepted block says of its post-quantum part. -/
theorem validateBlockAt_pq (accepted : validateBlockAt V L skip now b root = .ok ()) :
    PQBlock L b := by
  unfold validateBlockAt at accepted
  simp only [bind_ok, reject_ok, orReject_ok, exists_const, Prod.exists] at accepted
  obtain ⟨_, -, _, -, cb, listOk, primes, prime, -, _, legsOk, tally, tallyRun, _, -, _,
    coinbaseOk, -⟩ := accepted
  obtain ⟨isCoinbase, txs, split⟩ := checkTxList_ok listOk
  rw [split, List.tail_cons] at tallyRun
  have coinbase := checkCoinbaseLegs_ok.mp legsOk
  have normal := foldlM_forall (fun t : Transaction => t.isCoinbase = false ∧ PQLegs L t)
    (fun _ _ _ step => ⟨(tallyTx_pq step).1, (tallyTx_pq step).2.1⟩) tallyRun
  have refsFresh := foldlM_fresh (fun tally : TxTally => tally.seen.spent) pqRefKeys
    (fun _ _ _ step => (tallyTx_pq step).2.2.1) tallyRun
  have keysFresh := foldlM_fresh (fun tally : TxTally => tally.seen.prime) pqOutputKeys
    (fun _ _ _ step => (tallyTx_pq step).2.2.2.1) tallyRun
  have fees := foldlM_sum (fun tally : TxTally => tally.fees.toNat) classicalFee
    (fun _ _ _ step => (tallyTx_pq step).2.2.2.2) tallyRun
  have refs : pqRefsFromTxs b.txs = pqRefsFromTxs txs := by
    rw [split]
    change cb.pqInputs.map PQInput.outputRef ++ pqRefsFromTxs txs = _
    rw [coinbase.pqInputs]
    rfl
  have outs : b.txs.flatMap Transaction.pqOutputs = txs.flatMap Transaction.pqOutputs := by
    rw [split, List.flatMap_cons, coinbase.pqOutputs, List.nil_append]
  constructor
  case regular =>
    intro t member isCb
    rw [split] at member
    rcases List.mem_cons.mp member with rfl | later
    · exact coinbase.pqInputs
    · rw [(normal t later).1] at isCb
      exact absurd isCb Bool.false_ne_true
  case unspent =>
    rw [refs]
    intro ref member
    obtain ⟨t, inTxs, inRefs⟩ := List.mem_flatMap.mp member
    obtain ⟨input, inInputs, rfl⟩ := List.mem_map.mp inRefs
    exact (normal t inTxs).2.unspent input inInputs
  case new =>
    rw [outs]
    intro o member
    obtain ⟨t, inTxs, inOuts⟩ := List.mem_flatMap.mp member
    exact (normal t inTxs).2.new o inOuts
  case refs =>
    rw [refs]
    apply List.Nodup.of_map hexstr
    have same : (pqRefsFromTxs txs).map hexstr = txs.flatMap pqRefKeys := by
      rw [pqRefsFromTxs, List.map_flatMap]
      refine congrArg (fun keys => txs.flatMap keys) (funext fun t => ?_)
      rw [List.map_map]
      exact List.map_eq_flatMap
    rw [same]
    exact refsFresh.distinct
  case keys =>
    rw [outs]
    apply List.Nodup.of_map fun key => ascii "pqkey:" ++ hexstr key
    have same : ((txs.flatMap Transaction.pqOutputs).map PQOutput.oneTimeKey).map
        (fun key => ascii "pqkey:" ++ hexstr key) = txs.flatMap pqOutputKeys := by
      rw [List.map_map, List.map_flatMap]
      exact congrArg (fun keys => txs.flatMap keys) (funext fun t => List.map_eq_flatMap)
    rw [same]
    exact keysFresh.distinct
  case balance =>
    have none : pqFee cb = 0 := by
      rw [pqFee, hasPQ, coinbase.pqInputs, coinbase.pqOutputs]
      rfl
    rw [refs, outs, PQLegs.sum fun t member => (normal t member).2, split, List.map_cons,
      List.sum_cons, none, Nat.zero_add]
  case minted =>
    unfold checkCoinbase at coinbaseOk
    simp only [bind_ok, reject_ok, exists_const, ne_eq, not_not] at coinbaseOk
    obtain ⟨minted, expected, mintedEq, -⟩ := coinbaseOk
    refine ⟨cb, by rw [split]; rfl, ?_⟩
    rw [UInt64.toNat_zero, Nat.zero_add] at fees
    rw [mintedEq, expectedCoinbaseMinted_ok expected, fees, split, List.tail_cons]

end Block

end Validate

end Obscura
