import Obscura.Books
import Obscura.Transfer

/-! # Locks and maturity

An output may be locked up to a height, and an output of a coinbase must mature. A
transparent input names its output, and both conditions are checked on it. An anonymous
input names a pool of outputs and hides which member it spends, so the conditions must
hold for the whole pool: maturity is checked there, the lock is not.
-/

namespace Obscura

open Wire Tx Checked

section Spending

variable {V : Primitives}

/-- The block spends the output in the open, or as the member of a pool that `real` names
for an anonymous input. -/
inductive Spends (V : Primitives) (chain : List Block) (b : Block)
    (real : Transaction → AnonInput → Nat) (coin : CoinInfo) : Prop
  | transparent {t : Transaction} {input : Input} (carried : t ∈ b.txs)
      (listed : input ∈ t.inputs) (created : coin ∈ (chainLists V chain).coins)
      (named : coin.key = input.outputRef)
  | anonymous {t : Transaction} {input : AnonInput} (carried : t ∈ b.txs)
      (listed : input ∈ t.anonInputs) (created : coin ∈ (chainLists V chain).coins)
      (inside : real t input < Config.poolSize)
      (member : coin.index = input.poolID.toNat * Config.poolSize + real t input)

/-- The output may be spent at the height. -/
structure Ripe (height : Nat) (coin : CoinInfo) : Prop where
  unlocked : coin.lockUntil.toNat ≤ height
  mature : coin.isCoinbase = true → coin.height + Config.coinbaseMaturity ≤ height

/-- No member of a pool that the block spends from is locked. -/
def PoolsUnlocked (V : Primitives) (chain : List Block) (b : Block) : Prop :=
  ∀ t ∈ b.txs, ∀ input ∈ t.anonInputs, ∀ coin ∈ (chainLists V chain).coins,
    coin.index / Config.poolSize = input.poolID.toNat → coin.lockUntil.toNat ≤ b.header.height

theorem coinsOf_index {height start : Nat} {outs : List (Bool × Output)} {index : Nat}
    {coin : CoinInfo} (found : (coinsOf height start outs)[index]? = some coin) :
    coin.index = start + index := by
  induction outs generalizing start index with
  | nil => exact absurd found (by simp [coinsOf])
  | cons entry outs ih =>
    cases index with
    | zero =>
      obtain rfl := Option.some.inj found
      rfl
    | succ index =>
      rw [coinsOf, List.getElem?_cons_succ] at found
      rw [ih found]
      omega

theorem chainLists_index {chain : List Block} {index : Nat} {coin : CoinInfo}
    (found : (chainLists V chain).coins[index]? = some coin) : coin.index = index := by
  induction chain with
  | nil => exact absurd found (by simp [chainLists])
  | cons b older ih =>
    rw [chainLists, StoreLists.append] at found
    dsimp only at found
    by_cases old : index < (chainLists V older).coins.length
    · rw [List.getElem?_append_left old] at found
      exact ih found
    · rw [List.getElem?_append_right (by omega), blockLists] at found
      rw [coinsOf_index found]
      omega

/-- Every output of a pool that passes is mature. -/
theorem poolMembers_mature {L : Ledger} {lists : StoreLists} (stores : L.Stores V lists)
    {poolID height : Nat} {ring : List CoinInfo}
    (members : L.poolMembers poolID height = some ring) {index : Nat} {coin : CoinInfo}
    (found : lists.coins[index]? = some coin) (inside : index / Config.poolSize = poolID) :
    coin.isCoinbase = true → coin.height + Config.coinbaseMaturity ≤ height := by
  unfold Ledger.poolMembers at members
  dsimp only at members
  split_ifs at members
  have listed : index ∈ List.range' (poolID * Config.poolSize) Config.poolSize := by
    rw [List.mem_range'_1]
    unfold Config.poolSize at inside ⊢
    omega
  obtain ⟨member, passed⟩ := mapM_found members listed
  obtain ⟨stored, mature⟩ := Option.filter_eq_some_iff.mp passed
  have same : some member = some coin := by
    rw [← stored, ← found]
    exact stores.coins.byIndex index
  obtain rfl := Option.some.inj same
  intro isCoinbase
  rw [isCoinbase] at mature
  simpa using mature

/-- **Locks and maturity.** In every block that is accepted on a chain, whatever members the
anonymous inputs spend, the outputs spent may be spent at its height exactly when no pool
that the block spends from has a locked member. -/
theorem spends_ripe_iff {chain : List Block} {b : Block} {skip : Transaction → Bool} {now : Int}
    (chained : Chained V (Admitted V) chain)
    (accepted : validateBlockLocked V skip now (replay V chain) b = .ok ()) :
    (∀ real coin, Spends V chain b real coin → Ripe b.header.height coin) ↔
      PoolsUnlocked V chain b := by
  obtain ⟨cb, txs, _, block, _⟩ := chained.regular.step accepted
  have stores := chained.stores
  have legs : ∀ t ∈ b.txs, (t.inputs = [] ∧ t.anonInputs = []) ∨ ∃ seen primes next,
      LegsAccepted V (replay V chain) (skip t) t b.header.height seen primes next := by
    intro t member
    rw [block.split] at member
    rcases List.mem_cons.mp member with rfl | later
    · exact Or.inl ⟨block.coinbase.inputs, block.coinbase.anonInputs⟩
    · exact Or.inr (block.legs t later)
  constructor
  · intro ripe t carried input listed coin created inside
    refine (ripe (fun _ _ => coin.index % Config.poolSize) coin
      (.anonymous carried listed created ?_ ?_)).unlocked
    · exact Nat.mod_lt _ (by decide)
    · rw [← inside, Nat.mul_comm]
      exact (Nat.div_add_mod _ _).symm
  · intro unlocked real coin spends
    cases spends with
    | @transparent t input carried listed created named =>
      rcases legs t carried with ⟨none, _⟩ | ⟨_, _, _, accepted⟩
      · rw [none] at listed
        exact absurd listed List.not_mem_nil
      obtain ⟨_, entry, found, mature, elapsed, _⟩ := accepted.inputs input listed
      rw [Ledger.utxoEntry] at found
      split_ifs at found
      obtain ⟨member, key⟩ := (stores.coins.byKey _ _).mp found
      -- The key names one output of the chain.
      have same := (stores.coins.byKey _ coin).mpr ⟨created, named⟩
      change (replay V chain).coins.coinByKey _ = some coin at same
      rw [found] at same
      obtain rfl := Option.some.inj same
      exact ⟨elapsed, fun isCoinbase => not_lt.mp fun young => mature ⟨isCoinbase, young⟩⟩
    | @anonymous t input carried listed created inside member =>
      rcases legs t carried with ⟨_, none⟩ | ⟨_, _, _, accepted⟩
      · rw [none] at listed
        exact absurd listed List.not_mem_nil
      obtain ⟨ring, members, _⟩ := accepted.anonInputs input listed
      have pool : coin.index / Config.poolSize = input.poolID.toNat := by
        unfold Config.poolSize at inside member ⊢
        omega
      obtain ⟨index, position⟩ := List.mem_iff_getElem?.mp created
      have number := chainLists_index position
      exact ⟨unlocked t carried input listed coin created pool,
        poolMembers_mature stores members position (number ▸ pool)⟩

end Spending

/-! ## A locked member

On the network of `Forge` the coin of the first block is paid on at height 61, locked for
good. It is the fourteenth member of its pool. Once the pool is mature it is spent
anonymously.
-/

namespace Forge

open Testnet

section Held

-- The height at which the lock is lifted.
variable (lift : UInt64)

/-- The transfer with the lock, on the chain at which the coin is mature. -/
def lockedBase : List Block := forge 0 [transfer 1 subsidy lift] toll matured :: matured

/-- The chain at which the pool of the locked output is mature. -/
def lockedChain : List Block := idle 0 (lockedBase lift) 62 ++ (lockedBase lift)

/-- The locked output as the chain records it. -/
def lockedCoin : CoinInfo := ⟨payoutKey 0, shown (subsidy - toll), 61, false, lift, 61⟩

theorem length_lockedBase : (lockedBase lift).length = 61 := by
  rw [lockedBase, List.length_cons, length_matured]

theorem length_lockedChain : (lockedChain lift).length = 123 := by
  rw [lockedChain, List.length_append, length_idle, length_lockedBase]

theorem lockedBase_carried : Carried matured [transfer 1 subsidy lift] toll := by
  obtain ⟨coin, untagged⟩ := first_coin
  refine transfer_carried quiet_matured.state (by rw [length_matured]; omega) unpaid_matured coin
    untagged (by rw [length_matured]; decide) ?_ lift
  have bounds := subsidy_bounds
  have fee : toll.toNat = 10_000_000 := by decide
  rw [UInt64.le_iff_toNat_le, fee]
  omega

theorem net_lockedBase : Net (lockedBase lift) :=
  quiet_matured.state.extend (by rw [length_matured]; omega) (lockedBase_carried lift)

theorem quiet_locked : Quiet (lockedBase lift) (lockedChain lift) :=
  quiet_idle (net_lockedBase lift) 0 62 (by rw [length_lockedBase]; omega)

/-! ### The numbering of outputs -/

/-- Every block adds an output, so no output is older than its number says; and none is locked
for longer than the transfer. -/
def Paced (chain : List Block) : Prop :=
  chain.length ≤ (chainLists net chain).coins.length ∧
    ∀ coin ∈ (chainLists net chain).coins, coin.height ≤ coin.index + 1 ∧ coin.lockUntil ≤ lift

theorem mem_coinsOf {height start : Nat} {outs : List (Bool × Output)} {coin : CoinInfo}
    (member : coin ∈ coinsOf height start outs) :
    coin.height = height ∧ start ≤ coin.index ∧
      ∃ entry ∈ outs, coin.lockUntil = entry.2.lockUntil := by
  induction outs generalizing start with
  | nil => exact absurd member List.not_mem_nil
  | cons entry outs ih =>
    rcases List.mem_cons.mp member with rfl | later
    · exact ⟨rfl, Nat.le_refl _, entry, List.mem_cons_self, rfl⟩
    · obtain ⟨same, after, other, listed, locked⟩ := ih later
      exact ⟨same, by omega, other, List.mem_cons_of_mem _ listed, locked⟩

variable {lift} in
/-- One block more. -/
theorem Paced.extend {chain : List Block} (paced : Paced lift chain) (state : Net chain)
    (nonce : Nat) (extra : List Transaction) (fees : UInt64)
    (open_ : ∀ entry ∈ outputsOf extra, entry.2.lockUntil ≤ lift) :
    Paced lift (forge nonce extra fees chain :: chain) := by
  obtain ⟨many, heights⟩ := paced
  rw [Paced, chainLists, StoreLists.append, forge_lists state]
  dsimp only
  constructor
  · rw [List.length_cons, List.length_append, List.length_cons]
    omega
  · intro coin member
    rcases List.mem_append.mp member with old | fresh
    · exact heights coin old
    rcases List.mem_cons.mp fresh with rfl | carried
    · exact ⟨Nat.succ_le_succ many, UInt64.zero_le⟩
    · obtain ⟨same, after, entry, listed, locked⟩ := mem_coinsOf carried
      exact ⟨by omega, locked ▸ open_ entry listed⟩

variable {lift} in
/-- Empty blocks. -/
theorem Paced.idle {base : List Block} (paced : Paced lift base) (state : Net base) (nonce : Nat)
    {count : Nat} (small : base.length + count ≤ 2000) :
    Paced lift (idle nonce base count ++ base) := by
  induction count with
  | zero => exact paced
  | succ count ih =>
    have below := quiet_idle state nonce count (by omega)
    exact (ih (by omega)).extend below.state nonce [] 0 fun _ member =>
      absurd member List.not_mem_nil

/-- The chain of the transfer is paced. -/
theorem paced_locked : Paced lift (lockedChain lift) := by
  have none : ∀ entry ∈ outputsOf [], entry.2.lockUntil ≤ lift :=
    fun _ member => absurd member List.not_mem_nil
  have first : Paced lift first :=
    Paced.extend ⟨Nat.zero_le _, fun _ member => absurd member List.not_mem_nil⟩ Net.genesis 0 [] 0
      none
  have matured : Paced lift matured :=
    first.idle net_first 0 (by rw [Forge.first, List.length_singleton]; omega)
  have base : Paced lift (lockedBase lift) := by
    refine matured.extend quiet_matured.state 0 _ _ fun entry member => ?_
    obtain rfl := List.mem_singleton.mp member
    exact UInt64.le_refl _
  exact base.idle (net_lockedBase lift) 0 (by rw [length_lockedBase]; omega)

/-- An empty block adds one output. -/
theorem length_coins_idle {base : List Block} (state : Net base) (nonce : Nat) {count : Nat}
    (small : base.length + count ≤ 2000) :
    (chainLists net (idle nonce base count ++ base)).coins.length =
      (chainLists net base).coins.length + count := by
  induction count with
  | zero => rfl
  | succ count ih =>
    have below := quiet_idle state nonce count (by omega)
    rw [Forge.idle, List.cons_append, chainLists, StoreLists.append, forge_lists below.state]
    dsimp only
    rw [List.length_append, ih (by omega)]
    rfl

/-- The locked output has number 61. -/
theorem lockedCoin_created :
    (chainLists net (lockedChain lift)).coins[61]? = some (lockedCoin lift) := by
  have count : (chainLists net matured).coins.length = 60 := by
    rw [matured, length_coins_idle net_first 0 (by rw [first, List.length_singleton]; omega),
      first_lists]
    rfl
  obtain ⟨more, coins, _⟩ := (quiet_locked lift).coins
  rw [coins, lockedBase, chainLists, StoreLists.append, forge_lists quiet_matured.state,
    length_matured, count, List.append_assoc,
    List.getElem?_append_right (by rw [count]; omega), count]
  rfl

/-! ### The spend -/

/-- The contract that takes the amount of the locked output. -/
def pledge : SwapOut where
  swapKey := zeroHash
  amount := subsidy - toll - toll
  claimKey := zeroHash
  refundKey := zeroHash
  unlockHeight := 700
  claimA := zeroHash
  claimB := zeroHash
  claimR := zeroHash
  claimT := zeroHash

/-- The anonymous spend before its proof is made. -/
def unsignedSpend : Transaction where
  anonInputs := [{
    poolID := 3
    tag := payoutKey 0
    pseudoCommitment := shown (subsidy - toll) }]
  swapOutputs := [pledge]
  fee := toll

/-- An anonymous input for the locked output. -/
def hiddenInput (ctx : Hash) : AnonInput where
  poolID := 3
  tag := payoutKey 0
  pseudoCommitment := shown (subsidy - toll)
  proof := 13 :: ctx

/-- The locked output goes into a contract. -/
def hiddenSpend : Transaction :=
  { unsignedSpend with anonInputs := [hiddenInput (unsignedSpend.coreHash net)] }

/-- The spend is small. -/
theorem hiddenSpend_size : hiddenSpend.serialize.length ≤ 10_000 := by
  have ctx : ∀ t : Transaction, (t.coreHash net).length = 32 := fun t => length_digest _
  have inputs : (putList AnonInput.serialize hiddenSpend.anonInputs).length ≤ 1000 := by
    simp only [hiddenSpend, hiddenInput, putList, AnonInput.serialize, putU64, List.length_append,
      length_bigEndian, length_wB, length_wU64, payoutKey_length, ctx, length_shown,
      List.flatMap_cons, List.flatMap_nil, List.append_nil, List.length_cons, List.length_nil]
    omega
  have outputs : (putList SwapOut.serialize hiddenSpend.swapOutputs).length ≤ 1000 := by
    simp only [hiddenSpend, unsignedSpend, pledge, putList, SwapOut.serialize, putU64,
      List.length_append, length_bigEndian, length_wB, length_wU64, List.flatMap_cons, List.flatMap_nil,
      List.append_nil, List.length_cons, List.length_nil, zeroHash, List.length_replicate]
    omega
  unfold Transaction.serialize
  simp only [List.length_append, length_bigEndian, length_wB, length_wU64]
  simp only [hiddenSpend, unsignedSpend, length_putList_nil, wBool, List.length_cons,
    List.length_nil] at inputs outputs ⊢
  omega

/-- An output of the chain, by number. -/
def numbered (index : Nat) : CoinInfo :=
  (chainLists net (lockedChain lift)).coins[index]?.getD (lockedCoin lift)

/-- The pool of the locked output is complete and mature. -/
theorem locked_pool : (replay net (lockedChain lift)).poolMembers 3 124 =
    some ((List.range' 48 16).map (numbered lift)) := by
  obtain ⟨many, heights⟩ := paced_locked lift
  have stores := ((quiet_locked lift).state.chained.mono fun L b => Verified.admitted).stores
  rw [length_lockedChain] at many
  unfold Ledger.poolMembers
  rw [if_neg (by decide)]
  dsimp only
  have size : 3 * Config.poolSize = 48 ∧ Config.poolSize = 16 := by decide
  rw [size.1, size.2, if_neg (by rw [stores.coinCount]; omega)]
  refine mapM_eq_map fun index member => ?_
  rw [List.mem_range'_1] at member
  obtain ⟨coin, found⟩ :
      ∃ coin, (chainLists net (lockedChain lift)).coins[index]? = some coin :=
    ⟨_, List.getElem?_eq_getElem (by omega)⟩
  have age := (heights coin (List.mem_of_getElem? found)).1
  rw [chainLists_index found] at age
  have stored : (replay net (lockedChain lift)).coins.coinByIndex index = some coin :=
    (stores.coins.byIndex index).trans found
  rw [numbered, found, Ledger.poolMember, stored, Option.filter_some, if_pos]
  · rfl
  · have mature : ¬ 124 < coin.height + Config.coinbaseMaturity := by
      unfold Config.coinbaseMaturity
      omega
    simp [mature]

theorem locked_state :
    (replay net (lockedChain lift)).tags.has (hexstr (payoutKey 0)) = false ∧
      (replay net (lockedChain lift)).swaps = ∅ ∧
      (replay net (lockedChain lift)).swapNonces = ∅ := by
  have stores := ((quiet_locked lift).state.chained.mono fun L b => Verified.admitted).stores
  obtain ⟨_, applied, _⟩ := @forge_applied matured quiet_matured.state 0 [transfer 1 subsidy lift]
    toll (by rw [length_matured]; omega) (lockedBase_carried lift)
  have txs := @forge_txs matured quiet_matured.state 0 [transfer 1 subsidy lift] toll
  obtain ⟨swaps, nonces⟩ := no_swaps
  refine ⟨?_, ?_, ?_⟩
  · rw [← Bool.not_eq_true, stores.tags.has, (quiet_locked lift).tags, lockedBase, chainLists,
      StoreLists.append, forge_lists quiet_matured.state, quiet_matured.tags, first_lists]
    change hexstr (payoutKey 0) ∉ [hexstr (payoutKey 1)]
    rw [List.mem_singleton, hexstr_inj]
    exact (payoutKey_ne_zero Nat.one_pos (by omega)).symm
  · rw [(quiet_locked lift).swaps, lockedBase, applied.swaps, txs, swaps]
    rfl
  · rw [(quiet_locked lift).swapNonces, lockedBase, applied.swapNonces, txs, nonces]
    rfl

/-- The proof shows the member of the pool. -/
theorem hiddenInput_proved (ctx : Hash) :
    AnonProofs net ctx (hiddenInput ctx) ((List.range' 48 16).map (numbered lift)) := by
  have place : ((List.range' 48 16).map (numbered lift))[13]? = some (lockedCoin lift) := by
    have member : numbered lift 61 = lockedCoin lift := by
      rw [numbered, lockedCoin_created]
      rfl
    rw [List.getElem?_map, ← member]
    rfl
  have key : (((List.range' 48 16).map (numbered lift)).map CoinInfo.key)[13]? =
      some (payoutKey 0) := by
    rw [List.getElem?_map, place]
    rfl
  have commitment : (((List.range' 48 16).map (numbered lift)).map CoinInfo.commitment)[13]? =
      some (shown (subsidy - toll)) := by
    rw [List.getElem?_map, place]
    rfl
  have ring : net.verifyAnonSpendBytes = ringProof := rfl
  have index : (13 : UInt8).toNat = 13 := rfl
  rw [AnonProofs, ring]
  simp only [hiddenInput, ringProof, index, key, commitment, Option.map_some, beq_self_eq_true,
    Bool.and_self]

/-- The rules accept the spend. -/
theorem hiddenSpend_valid (prime : List Bytes) :
    ∃ seen, validateTxLocked net (replay net (lockedChain lift)) false hiddenSpend 124
      ⟨[], prime⟩ = .ok ([], seen) := by
  obtain ⟨amount, rest⟩ := amounts
  obtain ⟨untagged, swaps, nonces⟩ := locked_state lift
  have bounds := subsidy_bounds
  have fee : toll.toNat = 10_000_000 := by decide
  have supply : Config.moneySupplyCap.toNat = 18_400_000_000_000_000_000 := by decide
  have shape : checkShape hiddenSpend = .ok () := by
    obtain ⟨fits, enough⟩ := toll_enough hiddenSpend_size
    have fee : hiddenSpend.fee = toll := rfl
    unfold checkShape
    simp only [bind_ok, reject_ok, exists_const, fits, fee, enough]
    refine ⟨?_, ?_, ?_, ?_, ?_, ?_, ?_⟩ <;>
      simp [hiddenSpend, unsignedSpend, Config.maxInputs, Config.maxOutputs]
  have inputs : hiddenSpend.anonInputs.foldlM
      (checkAnonInput net (replay net (lockedChain lift)) false 124 (hiddenSpend.coreHash net)) [] =
      .ok [hexstr (payoutKey 0)] := by
    refine bind_ok.mpr ⟨_, checkAnonInput_ok.mpr ⟨⟨payoutKey_length 0, length_shown _⟩, payoutKey 0,
      rfl, List.not_mem_nil, untagged, _, locked_pool lift, ?_, fun _ => ?_, rfl⟩, rfl⟩
    · rw [List.length_map, List.length_range']
      decide
    · exact hiddenInput_proved lift _
  have outputs : ∃ spent, hiddenSpend.swapOutputs.foldlM
      (checkSwapOutput net (replay net (lockedChain lift)) false 124)
      ([hexstr (payoutKey 0)], hiddenSpend.fee) = .ok (spent, subsidy - toll) := by
    refine ⟨_, bind_ok.mpr ⟨(_, subsidy - toll), checkSwapOutput_ok.mpr ⟨?_,
      fun _ => ⟨rfl, rfl, rfl⟩, ⟨?_, ?_⟩, ?_, ?_, ⟨?_, ?_⟩, ?_, rfl, ?_⟩, rfl⟩⟩
    · exact ⟨rfl, rfl, rfl, rfl, rfl, rfl, rfl⟩
    · decide
    · rw [swaps]
      simp
    · decide
    · rw [nonces, inSet]
      simp
    · intro none
      have none : (subsidy - toll - toll).toNat = (0 : UInt64).toNat := congrArg UInt64.toNat none
      rw [rest] at none
      change _ = 0 at none
      omega
    · change subsidy - toll - toll ≤ _
      rw [UInt64.le_iff_toNat_le, rest, supply]
      omega
    · decide
    · change (subsidy - toll).toNat = toll.toNat + (subsidy - toll - toll).toNat
      rw [amount, rest, fee]
      omega
  obtain ⟨spent, outputs⟩ := outputs
  have conserved : net.verifyConservationGen (pseudoIns hiddenSpend)
      (commitmentList hiddenSpend.outputs) 0 (subsidy - toll) hiddenSpend.conservation
      (hiddenSpend.coreHash net) = true := by
    change ([amountOf (shown (subsidy - toll))].sum + ((0 : UInt64).toNat : Int) ==
      ([] : List Int).sum + ((subsidy - toll).toNat : Int)) = true
    rw [shown, amountOf_shown]
    simp
  have classical : hasPQ hiddenSpend = false := rfl
  have normal : hiddenSpend.isCoinbase = false := rfl
  refine ⟨⟨spent, prime⟩, ?_⟩
  unfold validateTxLocked validateLegs
  simp only [bind_ok, reject_ok, exists_const, pure_ok, Prod.exists, normal, classical,
    Bool.false_eq_true, not_false_eq_true, ↓reduceIte, true_and]
  refine ⟨(), shape, _, rfl, _, inputs, _, _, rfl, _, _, rfl, _, _, outputs, _, _, rfl, _, _, rfl,
    _, _, rfl, 0, rfl, _, rfl, subsidy - toll, addU64_ok.mpr rfl, _, _, rfl, 0, rfl, ?_, rfl⟩
  rw [conserved]
  decide

/-- The block can carry the spend. -/
theorem hiddenSpend_carried : Carried (lockedChain lift) [hiddenSpend] toll := by
  constructor
  case few => exact Nat.le_refl 1
  case normal =>
    intro t member
    obtain rfl := List.mem_singleton.mp member
    exact ⟨rfl, rfl, hiddenSpend_size⟩
  case noLeaves => rfl
  case noPQ => rfl
  case outputs =>
    intro t member o listed
    obtain rfl := List.mem_singleton.mp member
    exact absurd listed List.not_mem_nil
  case small => decide
  case tally =>
    intro b height
    replace height : b.header.height = 124 := by rw [height, length_lockedChain]
    obtain ⟨seen, valid⟩ := hiddenSpend_valid lift [hexstr (payoutKey ((lockedChain lift).length + 1)),
      ascii "key:" ++ hexstr (payoutKey ((lockedChain lift).length + 1))]
    rw [← height] at valid
    exact ⟨seen, tally_one rfl rfl valid⟩

/-- The block that spends the locked output. -/
def hiddenBlock : Block := forge 0 [hiddenSpend] toll (lockedChain lift)

theorem hiddenBlock_height : (hiddenBlock lift).header.height = 124 := by
  rw [hiddenBlock, forge_height (quiet_locked lift).state, length_lockedChain]

theorem hiddenBlock_verified : Verified net (replay net (lockedChain lift)) (hiddenBlock lift) :=
  forge_verified (quiet_locked lift).state (by rw [length_lockedChain]; omega)
    (hiddenSpend_carried lift)

theorem hiddenBlock_spends :
    Spends net (lockedChain lift) (hiddenBlock lift) (fun _ _ => 13) (lockedCoin lift) := by
  have txs := @forge_txs (lockedChain lift) (quiet_locked lift).state 0 [hiddenSpend] toll
  refine @Spends.anonymous _ _ _ _ _ hiddenSpend (hiddenInput (unsignedSpend.coreHash net)) ?_
    List.mem_cons_self (List.mem_of_getElem? (lockedCoin_created lift)) (by decide) rfl
  rw [hiddenBlock, txs]
  exact List.mem_cons_of_mem _ List.mem_cons_self

end Held

/-- The height up to which the output is locked for good. -/
def lock : UInt64 := 1_000_000

/-- An output locked up to height 1000000 is spent at height 124. -/
theorem locked_output_spent :
    Chained net (Verified net) (lockedChain lock) ∧
      Verified net (replay net (lockedChain lock)) (hiddenBlock lock) ∧
      (hiddenBlock lock).header.height = 124 ∧
      Spends net (lockedChain lock) (hiddenBlock lock) (fun _ _ => 13) (lockedCoin lock) ∧
      ¬ Ripe (hiddenBlock lock).header.height (lockedCoin lock) := by
  refine ⟨(quiet_locked lock).state.chained, hiddenBlock_verified lock, hiddenBlock_height lock,
    hiddenBlock_spends lock, ?_⟩
  intro ripe
  have unlocked := ripe.unlocked
  rw [hiddenBlock_height] at unlocked
  exact absurd unlocked (by decide)

/-- The block of the transfer. -/
def transferBlock : Block := forge 0 [transfer 1 subsidy lock] toll matured

/-- The transfer itself spends a mature coin, and the output that it leaves open is spent
anonymously. -/
theorem open_outputs_spend_ripe :
    (Spends net matured transferBlock (fun _ _ => 0) ⟨payoutKey 1, minted, 1, true, 0, 0⟩ ∧
      Ripe transferBlock.header.height ⟨payoutKey 1, minted, 1, true, 0, 0⟩) ∧
      Spends net (lockedChain 0) (hiddenBlock 0) (fun _ _ => 13) (lockedCoin 0) ∧
      Ripe (hiddenBlock 0).header.height (lockedCoin 0) := by
  constructor
  · have state := quiet_matured.state
    have txs : transferBlock.txs = _ := @forge_txs matured state 0 [transfer 1 subsidy lock] toll
    have spends : Spends net matured transferBlock (fun _ _ => 0)
        ⟨payoutKey 1, minted, 1, true, 0, 0⟩ := by
      refine @Spends.transparent _ _ _ _ _ (transfer 1 subsidy lock) _ ?_ List.mem_cons_self ?_ rfl
      · rw [txs]
        exact List.mem_cons_of_mem _ List.mem_cons_self
      · obtain ⟨more, coins, _⟩ := quiet_matured.coins
        rw [coins, first_lists]
        exact List.mem_append_left _ List.mem_cons_self
    have chained := state.chained.mono fun L b => Verified.admitted
    obtain ⟨now, accepted⟩ := @forge_verified matured state 0 [transfer 1 subsidy lock] toll
      (by rw [length_matured]; omega) (lockedBase_carried lock)
    refine ⟨spends, (spends_ripe_iff chained accepted).mpr ?_ _ _ spends⟩
    intro t member input listed
    have member : t ∈ transferBlock.txs := member
    rw [txs, List.mem_cons, List.mem_singleton] at member
    rcases member with rfl | rfl
    · exact absurd listed List.not_mem_nil
    · exact absurd listed List.not_mem_nil
  · have chained := (quiet_locked 0).state.chained.mono fun L b => Verified.admitted
    obtain ⟨now, accepted⟩ := hiddenBlock_verified 0
    refine ⟨hiddenBlock_spends 0,
      (spends_ripe_iff chained accepted).mpr ?_ _ _ (hiddenBlock_spends 0)⟩
    -- No output of the chain has a lock.
    intro t carried input listed coin created inside
    have lifted : coin.lockUntil.toNat ≤ 0 :=
      UInt64.le_iff_toNat_le.mp ((paced_locked 0).2 coin created).2
    exact lifted.trans (Nat.zero_le _)

end Forge

end Obscura
