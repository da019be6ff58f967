import Obscura.BlockSpec
import Mathlib.Data.List.Flatten

/-! # What applying a block computes

On a block without post-quantum parts every loop of `applyBlock` has a closed
form: each component of the new state is the old one updated with a list that
the block determines. `applyBlock_eq` states the whole block, `Growth` the part
of it that goes into the disk stores.
-/

namespace Obscura

open Wire Tx Checked

/-! ## What a block updates each component with -/

section Updates

variable (V : Primitives) (txs : List Transaction)

/-- The outputs that transactions spend, as keys of the spent set. -/
def spentRefs : List Bytes :=
  txs.flatMap fun t => t.inputs.map fun input => hexstr input.outputRef

/-- The nullifiers of the notes that transactions spend. -/
def noteNullifiers : List Bytes :=
  txs.flatMap fun t => t.zkInputs.map (fun input => hexstr input.nullifier) ++
    t.czkSpends.map fun s => hexstr s.nullifier

/-- The contracts that transactions claim or refund. -/
def closedSwaps : List Bytes :=
  txs.flatMap fun t => t.swapInputs.map fun input => hexstr input.swapKey

/-- The contracts that transactions open. -/
def openedSwaps : List (Bytes × SwapEntry) :=
  (txs.flatMap Transaction.swapOutputs).map fun so => (hexstr so.swapKey, swapEntryOf so)

/-- The nonces that new contracts use up. -/
def openedNonces : List Bytes :=
  (txs.flatMap Transaction.swapOutputs).map fun so => hexstr so.claimR

/-- The vaults that transactions close. -/
def closedVaults : List Bytes :=
  (txs.flatMap Transaction.vaultInputs).map fun input => hexstr input.vaultKey

/-- The vaults that transactions open at a height. -/
def openedVaults (height : Nat) : List (Bytes × VaultEntry) :=
  (txs.flatMap Transaction.vaultOutputs).map fun vo =>
    (hexstr vo.vaultKey, vaultEntryOf height vo)

/-- The coin store with the coin of one output. -/
def addOutputCoin (height : Nat) (coins : CoinStore) (entry : Bool × Output) : CoinStore :=
  coins.addCoin entry.2.oneTimeKey entry.2.commitment height entry.1 entry.2.lockUntil

end Updates

/-- A transaction without post-quantum parts whose key images have full length;
only outputs in a coinbase. -/
structure Plain (t : Transaction) : Prop where
  pqInputs : t.pqInputs = []
  pqOutputs : t.pqOutputs = []
  keyImages : ∀ input ∈ t.inputs, input.keyImage.length = 32
  coinbase : t.isCoinbase = true → CoinbaseLegs t

section Loops

variable {V : Primitives}

/-- The loop over the outputs succeeds in value-only mode. -/
theorem runUntil_applyOutput (height : Nat) {outs : List (Bool × Output)} (L : Ledger)
    (valueOnly : L.acc.valueOnly = true)
    (primes : ∀ entry ∈ outs, V.hashToPrime entry.2.oneTimeKey entry.2.primeNonce ≠ none) :
    runUntil (applyOutput V height) L outs =
      (none, { L with
        outPrimes := (outs.filterMap fun entry =>
          V.hashToPrime entry.2.oneTimeKey entry.2.primeNonce).foldl
            (fun set pb => set.add V (hexstr pb)) L.outPrimes
        coins := outs.foldl (addOutputCoin height) L.coins }) := by
  induction outs generalizing L with
  | nil => rfl
  | cons entry outs ih =>
    obtain ⟨pb, found⟩ := Option.ne_none_iff_exists'.mp (primes entry (by simp))
    have absent : L.acc.contains (ofBigEndian pb) = false := by
      simp [Accumulator.contains, valueOnly]
    rw [runUntil]
    simp only [applyOutput, found, absent, Bool.false_eq_true, ↓reduceIte]
    refine (ih _ ?_ ?_).trans ?_
    · exact valueOnly
    · intro other member
      exact primes other (List.mem_cons_of_mem _ member)
    · rw [List.filterMap_cons, found]
      rfl

theorem foldl_applyTag (L : Ledger) (tags : List Bytes) :
    tags.foldl (applyTag V) L =
      { L with
        tags := tags.foldl (fun set tag => set.add V (hexstr tag)) L.tags
        nullAcc := tags.foldl (PQAccum.Accumulator.add V) L.nullAcc } := by
  induction tags generalizing L with
  | nil => rfl
  | cons tag tags ih =>
    rw [List.foldl_cons, ih]
    rfl

theorem foldl_applyInput (L : Ledger) {inputs : List Input}
    (lengths : ∀ input ∈ inputs, input.keyImage.length = 32) :
    inputs.foldl (applyInput V) L =
      (inputs.map fun input => recordedTag V input.keyImage).foldl (applyTag V)
        { L with
          spent := (inputs.map fun input => hexstr input.outputRef).foldl (DiskSet.add V)
            L.spent } := by
  induction inputs generalizing L with
  | nil => rfl
  | cons input inputs ih =>
    have length := lengths input (by simp)
    rw [List.foldl_cons, ih _ fun other member => lengths other (List.mem_cons_of_mem _ member)]
    simp only [applyInput, length, ↓reduceIte, List.map_cons, List.foldl_cons]
    rfl

theorem txTags_of_plain {t : Transaction} (plain : Plain t) :
    txTags V t = (t.inputs.map fun input => recordedTag V input.keyImage) ++
      t.anonInputs.map fun input => recordedTag V input.tag := by
  unfold txTags
  cases isCoinbase : t.isCoinbase with
  | true =>
    have legs := plain.coinbase isCoinbase
    simp [legs.inputs, legs.anonInputs]
  | false =>
    have all : t.inputs.filter (fun input => input.keyImage.length = 32) = t.inputs :=
      List.filter_eq_self.mpr fun input member => by simp [plain.keyImages input member]
    simp [all]

/-- What a plain transaction spends. -/
theorem applySpends_eq (L : Ledger) {t : Transaction} (plain : Plain t) :
    applySpends V L t =
      { L with
        spent := (t.inputs.map fun input => hexstr input.outputRef).foldl (DiskSet.add V) L.spent
        tags := (txTags V t).foldl (fun set tag => set.add V (hexstr tag)) L.tags
        nullAcc := (txTags V t).foldl (PQAccum.Accumulator.add V) L.nullAcc
        swaps := OrdMap.eraseAll L.swaps (t.swapInputs.map fun input => hexstr input.swapKey)
        zkNull := markAll L.zkNull (t.zkInputs.map (fun input => hexstr input.nullifier) ++
          t.czkSpends.map fun s => hexstr s.nullifier) } := by
  rw [txTags_of_plain plain]
  unfold applySpends
  cases isCoinbase : t.isCoinbase with
  | true =>
    have legs := plain.coinbase isCoinbase
    simp [legs.inputs, legs.anonInputs, legs.swapInputs, legs.zkInputs, legs.czkSpends,
      OrdMap.eraseAll, markAll]
  | false =>
    have anons : ∀ L : Ledger,
        t.anonInputs.foldl (fun L input => applyTag V L (recordedTag V input.tag)) L =
          (t.anonInputs.map fun input => recordedTag V input.tag).foldl (applyTag V) L := by
      intro L
      rw [List.foldl_map]
    simp only [Bool.false_eq_true, ↓reduceIte]
    rw [foldl_applyInput L plain.keyImages, anons, ← List.foldl_append, foldl_applyTag,
      plain.pqInputs]
    rfl

/-- The spends of a block as one update. -/
theorem foldl_applySpends (L : Ledger) {txs : List Transaction} (plain : ∀ t ∈ txs, Plain t) :
    txs.foldl (applySpends V) L =
      { L with
        spent := (spentRefs txs).foldl (DiskSet.add V) L.spent
        tags := (blockTagsFromTxs V txs).foldl (fun set tag => set.add V (hexstr tag)) L.tags
        nullAcc := (blockTagsFromTxs V txs).foldl (PQAccum.Accumulator.add V) L.nullAcc
        swaps := OrdMap.eraseAll L.swaps (closedSwaps txs)
        zkNull := markAll L.zkNull (noteNullifiers txs) } := by
  induction txs generalizing L with
  | nil => rfl
  | cons t txs ih =>
    rw [List.foldl_cons, ih _ fun other member => plain other (List.mem_cons_of_mem _ member),
      applySpends_eq L (plain t (by simp))]
    simp only [spentRefs, blockTagsFromTxs, closedSwaps, noteNullifiers, OrdMap.eraseAll,
      markAll, List.flatMap_cons, List.foldl_append]

theorem foldl_applySwapOutput (L : Ledger) (outs : List SwapOut) :
    outs.foldl applySwapOutput L =
      { L with
        swaps := OrdMap.insertAll L.swaps
          (outs.map fun so => (hexstr so.swapKey, swapEntryOf so))
        swapNonces := markAll L.swapNonces (outs.map fun so => hexstr so.claimR) } := by
  induction outs generalizing L with
  | nil => rfl
  | cons so outs ih =>
    rw [List.foldl_cons, ih]
    rfl

theorem foldl_applyVaultOutput (height : Nat) (L : Ledger) (outs : List VaultOut) :
    outs.foldl (applyVaultOutput height) L =
      { L with
        vaults := OrdMap.insertAll L.vaults
          (outs.map fun vo => (hexstr vo.vaultKey, vaultEntryOf height vo)) } := by
  induction outs generalizing L with
  | nil => rfl
  | cons vo outs ih =>
    rw [List.foldl_cons, ih]
    rfl

/-- Claims of distinct live vaults that the pool can pay. -/
structure ClaimsCovered (L : Ledger) (claims : List VaultIn) : Prop where
  distinct : (claims.map fun input => hexstr input.vaultKey).Nodup
  live : ∀ input ∈ claims, L.vaults[hexstr input.vaultKey]? ≠ none
  covered : (claims.map fun input => input.yield.toNat).sum ≤ L.incentivePool.toNat

/-- Covered claims are paid in full: the pool loses exactly the stated yields. -/
theorem foldl_applyVaultInput (L : Ledger) {claims : List VaultIn}
    (covered : ClaimsCovered L claims) :
    ∃ pool : UInt64,
      pool.toNat + (claims.map fun input => input.yield.toNat).sum = L.incentivePool.toNat ∧
      claims.foldl applyVaultInput L =
        { L with
          incentivePool := pool
          vaults := OrdMap.eraseAll L.vaults (claims.map fun input => hexstr input.vaultKey) } := by
  induction claims generalizing L with
  | nil => exact ⟨L.incentivePool, by simp, rfl⟩
  | cons input claims ih =>
    obtain ⟨distinct, live, enough⟩ := covered
    rw [List.map_cons, List.nodup_cons] at distinct
    rw [List.map_cons, List.sum_cons] at enough
    have affordable : input.yield ≤ L.incentivePool := by
      rw [UInt64.le_iff_toNat_le]
      omega
    have left := UInt64.toNat_sub_of_le _ _ affordable
    have paid : applyVaultInput L input =
        { L with
          incentivePool := L.incentivePool - input.yield
          vaults := L.vaults.erase (hexstr input.vaultKey) } := by
      have open' : L.vaults[hexstr input.vaultKey]?.isNone = false := by
        simpa using live input (by simp)
      simp [applyVaultInput, open', affordable]
    have rest : ClaimsCovered (applyVaultInput L input) claims := by
      rw [paid]
      refine ⟨distinct.2, ?_, ?_⟩
      · intro other member
        have different : hexstr input.vaultKey ≠ hexstr other.vaultKey := fun same =>
          distinct.1 (same ▸ List.mem_map_of_mem (f := fun input => hexstr input.vaultKey) member)
        simp only [OrdMap.lookup_erase, if_neg different]
        exact live other (List.mem_cons_of_mem _ member)
      · change _ ≤ (L.incentivePool - input.yield).toNat
        omega
    obtain ⟨pool, sum, run⟩ := ih _ rest
    rw [paid] at sum run
    refine ⟨pool, ?_, ?_⟩
    · rw [List.map_cons, List.sum_cons]
      change pool.toNat + _ = (L.incentivePool - input.yield).toNat at sum
      omega
    · rw [List.foldl_cons, paid, run]
      rfl

/-- The claims and deposits of a block against the vaults before it. -/
structure VaultLegs (L : Ledger) (txs : List Transaction) : Prop where
  claims : ClaimsCovered L (txs.flatMap Transaction.vaultInputs)
  deposits : ((txs.flatMap Transaction.vaultOutputs).map fun vo => hexstr vo.vaultKey).Nodup
  unregistered : ∀ vo ∈ txs.flatMap Transaction.vaultOutputs, L.vaults[hexstr vo.vaultKey]? = none
  coinbase : ∀ t ∈ txs, t.isCoinbase = true → t.vaultInputs = [] ∧ t.vaultOutputs = []

theorem applyVaults_eq (height : Nat) (L : Ledger) {t : Transaction}
    (coinbase : t.isCoinbase = true → t.vaultInputs = [] ∧ t.vaultOutputs = []) :
    applyVaults height L t =
      t.vaultOutputs.foldl (applyVaultOutput height) (t.vaultInputs.foldl applyVaultInput L) := by
  unfold applyVaults
  cases isCoinbase : t.isCoinbase with
  | true => simp [coinbase isCoinbase]
  | false => simp

/-- The vaults after the claims and deposits of one transaction. -/
def vaultsAfter (height : Nat) (vaults : GoMap VaultEntry) (t : Transaction) : GoMap VaultEntry :=
  OrdMap.insertAll (OrdMap.eraseAll vaults (t.vaultInputs.map fun input => hexstr input.vaultKey))
    (t.vaultOutputs.map fun vo => (hexstr vo.vaultKey, vaultEntryOf height vo))

theorem VaultLegs.here {L : Ledger} {t : Transaction} {txs : List Transaction}
    (legs : VaultLegs L (t :: txs)) : ClaimsCovered L t.vaultInputs := by
  obtain ⟨⟨distinct, live, covered⟩, _, _, _⟩ := legs
  rw [List.flatMap_cons, List.map_append] at distinct covered
  rw [List.sum_append] at covered
  refine ⟨(List.nodup_append.mp distinct).1, ?_, by omega⟩
  intro input member
  exact live input (List.mem_append_left _ member)

theorem VaultLegs.apart {L : Ledger} {t : Transaction} {txs : List Transaction} (height : Nat)
    (legs : VaultLegs L (t :: txs)) {key : Bytes}
    (deposited : key ∈ (t.vaultOutputs.map fun vo =>
      (hexstr vo.vaultKey, vaultEntryOf height vo)).map Prod.fst) :
    key ∉ closedVaults txs ∧
      key ∉ (txs.flatMap Transaction.vaultOutputs).map fun vo => hexstr vo.vaultKey := by
  simp only [List.map_map, List.mem_map, Function.comp_apply] at deposited
  obtain ⟨vo, member, rfl⟩ := deposited
  constructor
  · intro claimed
    obtain ⟨input, inputMember, same⟩ := List.mem_map.mp claimed
    refine legs.claims.live input (List.mem_append_right _ inputMember) ?_
    rw [same]
    exact legs.unregistered vo (List.mem_append_left _ member)
  · intro again
    have deposits := legs.deposits
    rw [List.flatMap_cons, List.map_append, List.nodup_append] at deposits
    exact deposits.2.2 _ (List.mem_map_of_mem member) _ again rfl

/-- The claims of the others are covered once the first is applied. -/
theorem VaultLegs.rest (height : Nat) {L : Ledger} {t : Transaction} {txs : List Transaction}
    {pool : UInt64} (legs : VaultLegs L (t :: txs))
    (sum : pool.toNat + (t.vaultInputs.map fun input => input.yield.toNat).sum =
      L.incentivePool.toNat) :
    VaultLegs { L with incentivePool := pool, vaults := vaultsAfter height L.vaults t } txs := by
  obtain ⟨⟨distinct, live, covered⟩, deposits, unregistered, coinbase⟩ := id legs
  rw [List.flatMap_cons, List.map_append] at distinct covered deposits
  rw [List.nodup_append] at distinct deposits
  rw [List.sum_append] at covered
  refine ⟨⟨distinct.2.1, ?_, ?_⟩, deposits.2.1, ?_, ?_⟩
  · intro input member
    have claimed : hexstr input.vaultKey ∈ closedVaults txs := List.mem_map_of_mem member
    have notDeposited := fun deposited => (legs.apart height deposited).1 claimed
    have notClaimed : hexstr input.vaultKey ∉
        t.vaultInputs.map fun input => hexstr input.vaultKey := fun earlier =>
      distinct.2.2 _ earlier _ claimed rfl
    change (vaultsAfter height L.vaults t)[hexstr input.vaultKey]? ≠ none
    rw [vaultsAfter, OrdMap.lookup_insertAll_absent _ _ notDeposited, OrdMap.lookup_eraseAll,
      if_neg notClaimed]
    exact live input (List.mem_append_right _ member)
  · change _ ≤ pool.toNat
    omega
  · intro vo member
    have notDeposited := fun deposited =>
      (legs.apart height deposited).2 (List.mem_map_of_mem (f := fun vo => hexstr vo.vaultKey)
        member)
    change (vaultsAfter height L.vaults t)[hexstr vo.vaultKey]? = none
    rw [vaultsAfter, OrdMap.lookup_insertAll_absent _ _ notDeposited, OrdMap.lookup_eraseAll,
      unregistered vo (List.mem_append_right _ member), ite_self]
  · intro other member
    exact coinbase other (List.mem_cons_of_mem _ member)

/-- The vault loop of a block: all claims, then all deposits. -/
theorem foldl_applyVaults (height : Nat) (L : Ledger) {txs : List Transaction}
    (legs : VaultLegs L txs) :
    ∃ pool : UInt64,
      pool.toNat + ((txs.flatMap Transaction.vaultInputs).map fun input => input.yield.toNat).sum =
        L.incentivePool.toNat ∧
      txs.foldl (applyVaults height) L =
        { L with
          incentivePool := pool
          vaults := OrdMap.insertAll (OrdMap.eraseAll L.vaults (closedVaults txs))
            (openedVaults txs height) } := by
  induction txs generalizing L with
  | nil => exact ⟨L.incentivePool, by simp, rfl⟩
  | cons t txs ih =>
    obtain ⟨pool, sum, claimed⟩ := foldl_applyVaultInput L legs.here
    have after : applyVaults height L t =
        { L with incentivePool := pool, vaults := vaultsAfter height L.vaults t } := by
      rw [applyVaults_eq height L (legs.coinbase t (by simp)), claimed, foldl_applyVaultOutput]
      rfl
    obtain ⟨final, finalSum, run⟩ := ih _ (legs.rest height sum)
    refine ⟨final, ?_, ?_⟩
    · simp only [List.flatMap_cons, List.map_append, List.sum_append]
      change final.toNat + _ = pool.toNat at finalSum
      omega
    · have keys : ((t.vaultOutputs.map fun vo =>
          (hexstr vo.vaultKey, vaultEntryOf height vo)).map Prod.fst).Nodup := by
        have deposits := legs.deposits
        rw [List.flatMap_cons, List.map_append, List.nodup_append] at deposits
        rw [List.map_map]
        exact deposits.1
      have swapped := OrdMap.eraseAll_insertAll
        (OrdMap.eraseAll L.vaults (t.vaultInputs.map fun input => hexstr input.vaultKey))
        (closedVaults txs) keys fun key claimed deposited =>
          (legs.apart height deposited).1 claimed
      have claims : closedVaults (t :: txs) =
          (t.vaultInputs.map fun input => hexstr input.vaultKey) ++ closedVaults txs := by
        simp [closedVaults]
      have deposits : openedVaults (t :: txs) height =
          (t.vaultOutputs.map fun vo => (hexstr vo.vaultKey, vaultEntryOf height vo)) ++
            openedVaults txs height := by
        simp [openedVaults]
      rw [List.foldl_cons, after, run, claims, deposits, OrdMap.eraseAll_append,
        OrdMap.insertAll_append, ← swapped]
      rfl

end Loops

/-! ## The whole block -/

section Frames

variable {V : Primitives}

theorem applyLeaves_frame (txs : List Transaction) (L : Ledger) :
    applyLeaves V txs L =
      { L with
        cmTree := (cmLeavesFromTxs txs).foldl (EpochIMT.append V) L.cmTree
        cmRoots := (applyLeaves V txs L).cmRoots
        cmFinal := (applyLeaves V txs L).cmFinal
        cmRootOrder := (applyLeaves V txs L).cmRootOrder } := by
  generalize appended : (cmLeavesFromTxs txs).foldl (EpochIMT.append V) L.cmTree = tree
  by_cases none : tree.totalCount = 0 <;> simp [applyLeaves, recordCMAnchor, appended, none]

theorem applyLeaves_anchors (txs : List Transaction) (L : Ledger) (acc : Accumulator)
    (outPrimes : DiskSet) (coins : CoinStore) :
    let outputs := { L with acc := acc, outPrimes := outPrimes, coins := coins }
    (applyLeaves V txs outputs).cmRoots = (applyLeaves V txs L).cmRoots ∧
      (applyLeaves V txs outputs).cmFinal = (applyLeaves V txs L).cmFinal ∧
      (applyLeaves V txs outputs).cmRootOrder = (applyLeaves V txs L).cmRootOrder := by
  simp only [applyLeaves, recordCMAnchor]
  split <;> exact ⟨rfl, rfl, rfl⟩

theorem recordPQRoot_frame (L : Ledger) :
    recordPQRoot V L = { L with pqRoots := (recordPQRoot V L).pqRoots } := by
  unfold recordPQRoot
  split <;> rfl

theorem applyEconomics_frame (height : Nat) (tag : Bytes) (L : Ledger) :
    applyEconomics height tag L =
      { L with
        emitted := (applyEconomics height tag L).emitted
        incentivePool := (applyEconomics height tag L).incentivePool } := by
  by_cases genesis : height = 0 <;> simp [applyEconomics, genesis]

end Frames

/-- The state `L'` after an accepted block, component by component. -/
structure Applied (V : Primitives) (L : Ledger) (b : Block) (cb : Transaction) (L' : Ledger) :
    Prop where
  acc : L'.acc = (applyAccumulator V b.txs L).acc
  coins : L'.coins = (outputsOf b.txs).foldl (addOutputCoin b.header.height) L.coins
  outPrimes : L'.outPrimes =
    (primesOf V b.txs).foldl (fun set pb => set.add V (hexstr pb)) L.outPrimes
  spent : L'.spent = (spentRefs b.txs).foldl (DiskSet.add V) L.spent
  tags : L'.tags =
    (blockTagsFromTxs V b.txs).foldl (fun set tag => set.add V (hexstr tag)) L.tags
  nullAcc : L'.nullAcc = (blockTagsFromTxs V b.txs).foldl (PQAccum.Accumulator.add V) L.nullAcc
  swaps : L'.swaps =
    OrdMap.insertAll (OrdMap.eraseAll L.swaps (closedSwaps b.txs)) (openedSwaps b.txs)
  swapNonces : L'.swapNonces = markAll L.swapNonces (openedNonces b.txs)
  vaults : L'.vaults = OrdMap.insertAll (OrdMap.eraseAll L.vaults (closedVaults b.txs))
    (openedVaults b.txs b.header.height)
  pool : ∃ paid : UInt64,
    paid.toNat + ((b.txs.flatMap Transaction.vaultInputs).map fun input => input.yield.toNat).sum =
      L.incentivePool.toNat ∧
    L'.incentivePool = (applyEconomics b.header.height cb.referrerTag
      { L with incentivePool := paid }).incentivePool
  emitted : L'.emitted = (applyEconomics b.header.height cb.referrerTag L).emitted
  zkNull : L'.zkNull = markAll L.zkNull (noteNullifiers b.txs)
  cmTree : L'.cmTree = (cmLeavesFromTxs b.txs).foldl (EpochIMT.append V) L.cmTree
  cmRoots : L'.cmRoots = (applyLeaves V b.txs L).cmRoots
  cmFinal : L'.cmFinal = (applyLeaves V b.txs L).cmFinal
  cmRootOrder : L'.cmRootOrder = (applyLeaves V b.txs L).cmRootOrder
  headers : L'.headers = L.headers ++ [b.header]
  byHash : L'.byHash = L.byHash.insert (b.header.id V) b.header.height
  referral : L'.referral = L.referral
  pqAcc : L'.pqAcc = L.pqAcc
  pqUtxo : L'.pqUtxo = L.pqUtxo
  pqIndex : L'.pqIndex = L.pqIndex
  pqNull : L'.pqNull = L.pqNull
  pqRoots : L'.pqRoots = (recordPQRoot V L).pqRoots

/-- What `applyBlock` relies on. -/
structure Applicable (V : Primitives) (L : Ledger) (b : Block) (cb : Transaction) : Prop where
  head : b.txs.head? = some cb
  isCoinbase : cb.isCoinbase = true
  plain : ∀ t ∈ b.txs, Plain t
  primes : ∀ entry ∈ outputsOf b.txs, V.hashToPrime entry.2.oneTimeKey entry.2.primeNonce ≠ none
  vaults : VaultLegs L b.txs
  valueOnly : L.acc.valueOnly = true

/-- The state in which the vault loop of `applyBlock` starts. -/
def vaultLoopStart (V : Primitives) (L : Ledger) (b : Block) : Ledger :=
  let L := (runUntil (applyOutput V b.header.height) L (outputsOf b.txs)).2
  let L := applyLeaves V b.txs (applyAccumulator V b.txs L)
  spendAndFund V b (runUntil (applyPQOutput V) L (b.txs.flatMap Transaction.pqOutputs)).2

section Block

variable {V : Primitives} {L : Ledger} {b : Block} {cb : Transaction}
  (applicable : Applicable V L b cb)

include applicable

theorem vaultLoopStart_eq :
    vaultLoopStart V L b =
      { L with
        acc := (applyAccumulator V b.txs L).acc
        coins := (outputsOf b.txs).foldl (addOutputCoin b.header.height) L.coins
        outPrimes := (primesOf V b.txs).foldl (fun set pb => set.add V (hexstr pb)) L.outPrimes
        cmTree := (cmLeavesFromTxs b.txs).foldl (EpochIMT.append V) L.cmTree
        cmRoots := (applyLeaves V b.txs L).cmRoots
        cmFinal := (applyLeaves V b.txs L).cmFinal
        cmRootOrder := (applyLeaves V b.txs L).cmRootOrder
        pqRoots := (recordPQRoot V L).pqRoots
        spent := (spentRefs b.txs).foldl (DiskSet.add V) L.spent
        tags := (blockTagsFromTxs V b.txs).foldl (fun set tag => set.add V (hexstr tag)) L.tags
        nullAcc := (blockTagsFromTxs V b.txs).foldl (PQAccum.Accumulator.add V) L.nullAcc
        swaps := OrdMap.insertAll (OrdMap.eraseAll L.swaps (closedSwaps b.txs)) (openedSwaps b.txs)
        swapNonces := markAll L.swapNonces (openedNonces b.txs)
        zkNull := markAll L.zkNull (noteNullifiers b.txs) } := by
  have noPQ : b.txs.flatMap Transaction.pqOutputs = [] :=
    List.flatMap_eq_nil_iff.mpr fun t member => (applicable.plain t member).pqOutputs
  have outputs := runUntil_applyOutput b.header.height L applicable.valueOnly
    applicable.primes
  rw [← primesOf] at outputs
  unfold vaultLoopStart spendAndFund
  rw [outputs, noPQ]
  generalize (primesOf V b.txs).foldl (fun set pb => set.add V (hexstr pb)) L.outPrimes = outPrimes
  generalize (outputsOf b.txs).foldl (addOutputCoin b.header.height) L.coins = coins
  obtain ⟨roots, finals, order⟩ := applyLeaves_anchors (V := V) b.txs L
    (applyAccumulator V b.txs L).acc outPrimes coins
  have grown : applyLeaves V b.txs (applyAccumulator V b.txs
      { L with outPrimes := outPrimes, coins := coins }) =
        { L with
          acc := (applyAccumulator V b.txs L).acc
          outPrimes := outPrimes
          coins := coins
          cmTree := (cmLeavesFromTxs b.txs).foldl (EpochIMT.append V) L.cmTree
          cmRoots := (applyLeaves V b.txs L).cmRoots
          cmFinal := (applyLeaves V b.txs L).cmFinal
          cmRootOrder := (applyLeaves V b.txs L).cmRootOrder } := by
    rw [← roots, ← finals, ← order]
    exact applyLeaves_frame b.txs _
  simp only [runUntil, grown]
  rw [recordPQRoot_frame, foldl_applySpends _ applicable.plain, foldl_applySwapOutput]
  congr 1
  unfold recordPQRoot
  split <;> rfl

theorem vaultLoopStart_legs : VaultLegs (vaultLoopStart V L b) b.txs := by
  have vaults := applicable.vaults
  rw [vaultLoopStart_eq applicable]
  exact ⟨⟨vaults.claims.distinct, vaults.claims.live, vaults.claims.covered⟩,
    vaults.deposits, vaults.unregistered, vaults.coinbase⟩

/-- A block that can be applied is applied, with these effects. -/
theorem applyBlock_applied : ∃ L', applyBlock V L b = (none, L') ∧ Applied V L b cb L' := by
  obtain ⟨paid, paidSum, settled⟩ := foldl_applyVaults b.header.height (vaultLoopStart V L b)
    (vaultLoopStart_legs applicable)
  have start := vaultLoopStart_eq applicable
  have noPQ : b.txs.flatMap Transaction.pqOutputs = [] :=
    List.flatMap_eq_nil_iff.mpr fun t member => (applicable.plain t member).pqOutputs
  have outputs := runUntil_applyOutput b.header.height L applicable.valueOnly
    applicable.primes
  refine ⟨applyIndex V b.header (applyEconomics b.header.height cb.referrerTag
    (b.txs.foldl (applyVaults b.header.height) (vaultLoopStart V L b))), ?_, ?_⟩
  · unfold applyBlock settleBlock vaultLoopStart
    simp only [applicable.head, applicable.isCoinbase, Bool.not_true, Bool.false_eq_true,
      ↓reduceIte, outputs, noPQ, runUntil]
  · rw [start] at paidSum
    rw [settled, start, applyEconomics_frame]
    have same : ∀ M : Ledger, M.emitted = L.emitted →
        (applyEconomics b.header.height cb.referrerTag M).emitted =
          (applyEconomics b.header.height cb.referrerTag L).emitted := by
      intro M emitted
      unfold applyEconomics Ledger.blockEconomics
      split <;> simp [emitted]
    constructor
    case pool =>
      refine ⟨paid, paidSum, ?_⟩
      unfold applyIndex applyEconomics Ledger.blockEconomics
      split <;> rfl
    case emitted => exact same _ rfl
    all_goals rfl

end Block

/-! ## Accepted blocks can be applied -/

section Accepted

variable {V : Primitives} {skip : Transaction → Bool} {now : Int} {L : Ledger} {b : Block}
  {cb : Transaction} {txs : List Transaction}

theorem spentKeys_flatten (t : Transaction) :
    spentKeys V t = List.flatten
      [t.inputs.map fun input => hexstr (recordedTag V input.keyImage),
        t.anonInputs.map fun input => hexstr (recordedTag V input.tag),
        t.swapInputs.map fun input => ascii "swap:" ++ hexstr input.swapKey,
        t.vaultInputs.map fun input => ascii "vaultin:" ++ hexstr input.vaultKey,
        t.swapOutputs.flatMap fun so =>
          [ascii "swapnonce:" ++ hexstr so.claimR, ascii "swapout:" ++ hexstr so.swapKey],
        t.vaultOutputs.map fun vo => ascii "vaultout:" ++ hexstr vo.vaultKey,
        t.zkInputs.map fun input => ascii "zk:" ++ hexstr input.nullifier,
        t.czkSpends.map fun s => ascii "zk:" ++ hexstr s.nullifier] := by
  simp only [spentKeys, List.map_eq_flatMap, List.flatten_cons, List.flatten_nil, List.append_nil,
    List.append_assoc]

theorem nodup_kind {γ : Type} {kind : Transaction → List γ} {key : γ → Bytes} (tag : Bytes)
    (distinct : (txs.flatMap (spentKeys V)).Nodup)
    (within : ∀ t, ((kind t).map fun item => tag ++ key item).Sublist (spentKeys V t)) :
    ((txs.flatMap kind).map key).Nodup := by
  refine List.Nodup.of_map (fun key => tag ++ key) ?_
  rw [List.map_map, List.map_flatMap]
  exact distinct.sublist (List.Sublist.flatMap_right txs fun t _ => within t)

namespace BlockAccepted

variable (accepted : BlockAccepted V skip now L b cb txs)

include accepted

theorem plain : ∀ t ∈ b.txs, Plain t := by
  intro t member
  rw [accepted.split, List.mem_cons] at member
  rcases member with rfl | member
  · have legs := accepted.coinbase
    refine ⟨legs.pqInputs, legs.pqOutputs, ?_, fun _ => legs⟩
    simp [legs.inputs]
  · obtain ⟨notCoinbase, noInputs, noOutputs⟩ := accepted.normal t member
    obtain ⟨_, _, _, legs⟩ := accepted.legs t member
    refine ⟨noInputs, noOutputs, fun input inputMember => (legs.inputs input inputMember).1, ?_⟩
    rw [notCoinbase]
    exact fun absurd => Bool.noConfusion absurd

theorem flatMap_txs {α : Type} (part : Transaction → List α) (none : part cb = []) :
    b.txs.flatMap part = txs.flatMap part := by
  rw [accepted.split, List.flatMap_cons, none, List.nil_append]

theorem vaultInputs_eq : b.txs.flatMap Transaction.vaultInputs =
    txs.flatMap Transaction.vaultInputs :=
  accepted.flatMap_txs _ accepted.coinbase.vaultInputs

theorem vaultOutputs_eq : b.txs.flatMap Transaction.vaultOutputs =
    txs.flatMap Transaction.vaultOutputs :=
  accepted.flatMap_txs _ accepted.coinbase.vaultOutputs

theorem swapOutputs_eq : b.txs.flatMap Transaction.swapOutputs =
    txs.flatMap Transaction.swapOutputs :=
  accepted.flatMap_txs _ accepted.coinbase.swapOutputs

theorem closedVaults_nodup : (closedVaults b.txs).Nodup := by
  rw [closedVaults, accepted.vaultInputs_eq]
  refine nodup_kind (ascii "vaultin:") accepted.spent fun t => ?_
  rw [spentKeys_flatten]
  exact List.sublist_flatten_of_mem (by simp)

theorem openedVaults_nodup :
    ((b.txs.flatMap Transaction.vaultOutputs).map fun vo => hexstr vo.vaultKey).Nodup := by
  rw [accepted.vaultOutputs_eq]
  refine nodup_kind (ascii "vaultout:") accepted.spent fun t => ?_
  rw [spentKeys_flatten]
  exact List.sublist_flatten_of_mem (by simp)

/-- No swap is closed twice. -/
theorem closedSwaps_nodup : (closedSwaps b.txs).Nodup := by
  have shape : closedSwaps b.txs =
      (txs.flatMap Transaction.swapInputs).map fun input => hexstr input.swapKey := by
    rw [closedSwaps, accepted.flatMap_txs _ (by simp [accepted.coinbase.swapInputs]),
      List.map_flatMap]
  rw [shape]
  refine nodup_kind (ascii "swap:") accepted.spent fun t => ?_
  rw [spentKeys_flatten]
  exact List.sublist_flatten_of_mem (by simp)

/-- No swap is opened twice. -/
theorem openedSwaps_nodup :
    ((b.txs.flatMap Transaction.swapOutputs).map fun so => hexstr so.swapKey).Nodup := by
  rw [accepted.swapOutputs_eq]
  refine nodup_kind (ascii "swapout:") accepted.spent fun t => ?_
  rw [spentKeys_flatten, List.map_eq_flatMap]
  refine List.Sublist.trans ?_ (List.sublist_flatten_of_mem
    (List.mem_cons_of_mem _ (List.mem_cons_of_mem _ (List.mem_cons_of_mem _
      (List.mem_cons_of_mem _ List.mem_cons_self)))))
  exact List.Sublist.flatMap_right _ fun so _ => List.sublist_cons_self _ _

/-- No nonce is opened twice. -/
theorem openedNonces_nodup : (openedNonces b.txs).Nodup := by
  rw [openedNonces, accepted.swapOutputs_eq]
  refine nodup_kind (ascii "swapnonce:") accepted.spent fun t => ?_
  rw [spentKeys_flatten, List.map_eq_flatMap]
  refine List.Sublist.trans ?_ (List.sublist_flatten_of_mem
    (List.mem_cons_of_mem _ (List.mem_cons_of_mem _ (List.mem_cons_of_mem _
      (List.mem_cons_of_mem _ List.mem_cons_self)))))
  exact List.Sublist.flatMap_right _ fun so _ => by simp

/-- No tag is recorded twice. -/
theorem blockTags_nodup : ((blockTagsFromTxs V b.txs).map hexstr).Nodup := by
  have shape : (blockTagsFromTxs V b.txs).map hexstr =
      txs.flatMap fun t => (t.inputs.map fun input => hexstr (recordedTag V input.keyImage)) ++
        t.anonInputs.map fun input => hexstr (recordedTag V input.tag) := by
    rw [blockTagsFromTxs, accepted.flatMap_txs _ (by simp [txTags, accepted.isCoinbase]),
      List.map_flatMap]
    refine List.flatMap_congr fun t member => ?_
    have plain := accepted.plain t (by rw [accepted.split]; exact List.mem_cons_of_mem _ member)
    rw [txTags_of_plain plain, List.map_append, List.map_map, List.map_map]
    rfl
  rw [shape]
  refine accepted.spent.sublist (List.Sublist.flatMap_right txs fun t _ => ?_)
  rw [spentKeys_flatten]
  simp

/-- No nullifier is recorded twice. -/
theorem noteNullifiers_nodup : (noteNullifiers b.txs).Nodup := by
  have shape : noteNullifiers b.txs = noteNullifiers txs :=
    accepted.flatMap_txs _ (by simp [accepted.coinbase.zkInputs, accepted.coinbase.czkSpends])
  have kinds : noteNullifiers txs =
      (txs.flatMap fun t => t.zkInputs.map ZKInput.nullifier ++
        t.czkSpends.map CZKSpend.nullifier).map hexstr := by
    simp [noteNullifiers, List.map_flatMap, Function.comp_def]
  rw [shape, kinds]
  refine nodup_kind (ascii "zk:") accepted.spent fun t => ?_
  rw [spentKeys_flatten, List.map_append, List.map_map, List.map_map]
  simp only [List.flatten_cons, List.flatten_nil, List.append_nil]
  -- The two note kinds are the tail of the list of kinds.
  iterate 6 refine List.sublist_append_of_sublist_right ?_
  exact List.Sublist.refl _

/-- The vaults cover what is claimed of them. -/
theorem vaultLegs : VaultLegs L b.txs where
  claims := by
    refine ⟨accepted.closedVaults_nodup, ?_, ?_⟩
    · intro input member
      rw [accepted.vaultInputs_eq, List.mem_flatMap] at member
      obtain ⟨t, txMember, member⟩ := member
      obtain ⟨_, _, _, legs⟩ := accepted.legs t txMember
      obtain ⟨v, found⟩ := legs.vaultInputs input member
      rw [found]
      exact Option.some_ne_none v
    · rw [accepted.vaultInputs_eq]
      exact accepted.yields
  deposits := accepted.openedVaults_nodup
  unregistered := by
    intro vo member
    rw [accepted.vaultOutputs_eq, List.mem_flatMap] at member
    obtain ⟨t, txMember, member⟩ := member
    obtain ⟨_, _, _, legs⟩ := accepted.legs t txMember
    exact legs.vaultOutputs vo member
  coinbase := by
    intro t member isCoinbase
    have legs := (accepted.plain t member).coinbase isCoinbase
    exact ⟨legs.vaultInputs, legs.vaultOutputs⟩

theorem outputs_new {o : Output} {t : Transaction} (txMember : t ∈ b.txs)
    (member : o ∈ t.outputs) :
    L.coins.coinByKey o.oneTimeKey = none ∧
      ∃ pb, V.hashToPrime o.oneTimeKey o.primeNonce = some pb ∧
        L.outPrimes.has (hexstr pb) = false := by
  rw [accepted.split, List.mem_cons] at txMember
  rcases txMember with rfl | txMember
  · obtain ⟨absent, _, prime⟩ := accepted.coinbaseOutputs o member
    exact ⟨absent, prime⟩
  · obtain ⟨_, _, _, legs⟩ := accepted.legs t txMember
    obtain ⟨absent, _, prime⟩ := legs.outputs o member
    exact ⟨absent, prime⟩

theorem applicable (valueOnly : L.acc.valueOnly = true) : Applicable V L b cb where
  head := by rw [accepted.split]; rfl
  isCoinbase := accepted.isCoinbase
  plain := accepted.plain
  primes := by
    intro entry member
    simp only [outputsOf, List.mem_flatMap, List.mem_map] at member
    obtain ⟨t, txMember, o, outMember, rfl⟩ := member
    obtain ⟨_, pb, prime, _⟩ := accepted.outputs_new txMember outMember
    rw [prime]
    exact Option.some_ne_none pb
  vaults := accepted.vaultLegs
  valueOnly := valueOnly

end BlockAccepted

end Accepted

end Obscura
