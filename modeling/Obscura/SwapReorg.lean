import Obscura.Books
import Obscura.Forge
import Obscura.ForkRule

/-! # Claims and refunds across a reorg

A swap contract can be claimed up to a margin of blocks below its unlock height and
refunded from the unlock height on. On one chain it is settled once. Across a reorg the
margin keeps a claim on the abandoned branch apart from a refund on the adopted one as
long as the adopted branch has no more blocks above the fork than the margin; the depth
of the fork counts the blocks of the abandoned branch, and does not bound the length of
the adopted one.
-/

namespace Obscura

open Wire Tx

section Settlement

variable {V : Primitives}

/-- The swap contract with a given nonce is claimed, or refunded, in the block on top of
`older`. -/
structure SettledBy (V : Primitives) (older : List Block) (b : Block) (isRefund : Bool)
    (nonce : Bytes) (sw : SwapEntry) : Prop where
  input : ∃ t ∈ b.txs, ∃ input ∈ t.swapInputs, input.isRefund = isRefund ∧
    (replay V older).swaps[hexstr input.swapKey]? = some sw
  nonce : sw.claimR = nonce

/-- Some block of the chain claims, or refunds, the contract. -/
def Settled (V : Primitives) (chain : List Block) (isRefund : Bool) (nonce : Bytes) : Prop :=
  ∃ newer b older sw, chain = newer ++ b :: older ∧ SettledBy V older b isRefund nonce sw

/-- A contract with this nonce was claimed on the chain. -/
def Claimed (V : Primitives) (chain : List Block) : Bytes → Prop := Settled V chain false

/-- A contract with this nonce was refunded on the chain. -/
def Refunded (V : Primitives) (chain : List Block) : Bytes → Prop := Settled V chain true

/-- A contract with this nonce was funded on the chain. -/
def Funded (V : Primitives) (chain : List Block) (nonce : Bytes) : Prop :=
  inSet (replay V chain).swapNonces (hexstr nonce) = true

/-! ## One chain -/

theorem Chained.swapRegistry {chain : List Block} (chained : Chained V (Admitted V) chain) :
    Registry.Sound swapIdentity (Funded V chain) (replay V chain).swaps (swapsClosed V chain) := by
  induction chain with
  | nil =>
    have none : (replay V []).swaps = ∅ := by
      obtain ⟨_, applied⟩ := genesis_applied (V := V)
      change (genesisLedger V).swaps = ∅
      rw [applied.swaps]
      rfl
    rw [none]
    exact Registry.Sound.empty
  | cons b older ih =>
    obtain ⟨below, ⟨skip, now, accepted⟩, _⟩ := chained
    obtain ⟨cb, txs, L', block, _, run, applied, _⟩ := below.regular.step accepted
    have state : L' = replay V (b :: older) := by rw [replay, run]
    subst state
    exact Applied.swapRegistry block applied (ih below)

theorem Chained.height {newer older : List Block} {b : Block}
    (chained : Chained V (Admitted V) (newer ++ b :: older)) :
    b.header.height = older.length + 1 := by
  have lengths : ∀ {chain : List Block}, Chained V (Admitted V) chain →
      (replay V chain).headers.length = chain.length + 1 := by
    intro chain
    induction chain with
    | nil =>
      intro _
      obtain ⟨_, applied⟩ := genesis_applied (V := V)
      change (genesisLedger V).headers.length = _
      rw [applied.headers]
      rfl
    | cons b older ih =>
      intro chained
      obtain ⟨_, cb, applied⟩ := chained.last fun _ _ admitted => admitted
      rw [applied.headers, List.length_append, ih chained.1]
      rfl
  have chained := chained.below
  rw [(chained.last fun _ _ admitted => admitted).1, lengths chained.1]

/-- The window of a settlement. -/
theorem SettledBy.window {older newer : List Block} {b : Block} {isRefund : Bool} {nonce : Bytes}
    {sw : SwapEntry} (settled : SettledBy V older b isRefund nonce sw)
    (chained : Chained V (Admitted V) (newer ++ b :: older)) :
    SwapWindow (older.length + 1) isRefund sw := by
  have height := chained.height
  obtain ⟨below, ⟨skip, now, accepted⟩, _⟩ := chained.below
  obtain ⟨cb, txs, _, block, _⟩ := below.regular.step accepted
  obtain ⟨t, member, input, listed, rfl, found⟩ := settled.input
  rw [block.split] at member
  rcases List.mem_cons.mp member with rfl | member
  · rw [block.coinbase.swapInputs] at listed
    exact absurd listed List.not_mem_nil
  · obtain ⟨_, _, _, legs⟩ := block.legs t member
    obtain ⟨sw', found', window⟩ := legs.swapInputs input listed
    rw [found] at found'
    obtain rfl := Option.some.inj found'
    rw [← height]
    exact window

/-- What was settled is closed. -/
theorem SettledBy.closed {older : List Block} {b : Block} {isRefund : Bool} {nonce : Bytes}
    {sw : SwapEntry} (settled : SettledBy V older b isRefund nonce sw) (newer : List Block) :
    nonce ∈ swapsClosed V (newer ++ b :: older) := by
  induction newer with
  | nil =>
    obtain ⟨t, member, input, listed, -, found⟩ := settled.input
    refine List.mem_append_left _ (Registry.Sound.mem_identities.mpr
      ⟨hexstr input.swapKey, ?_, sw, found, settled.nonce⟩)
    exact List.mem_flatMap.mpr ⟨t, member, List.mem_map.mpr ⟨input, listed, rfl⟩⟩
  | cons b' newer ih => exact List.mem_append_right _ ih

theorem SettledBy.gone {older newer : List Block} {b : Block} {isRefund : Bool} {nonce : Bytes}
    {sw : SwapEntry} (settled : SettledBy V older b isRefund nonce sw)
    (chained : Chained V (Admitted V) (newer ++ b :: older)) {key : Bytes} {live : SwapEntry}
    (found : (replay V (newer ++ b :: older)).swaps[key]? = some live) : live.claimR ≠ nonce :=
  fun same => chained.swapRegistry.liveOpen key live found (by
    rw [swapIdentity, same]
    exact settled.closed newer)

/-- On one chain no contract is both claimed and refunded. -/
theorem Chained.claimed_or_refunded {chain : List Block} (chained : Chained V (Admitted V) chain)
    {nonce : Bytes} (claimed : Claimed V chain nonce) (refunded : Refunded V chain nonce) :
    False := by
  obtain ⟨newer, b, older, sw, rfl, claim⟩ := claimed
  obtain ⟨newer', b', older', sw', split, refund⟩ := refunded
  have earlier : ∀ {isRefund isRefund' : Bool} {newer older newer' older' : List Block}
      {b b' : Block} {sw sw' : SwapEntry}, SettledBy V older b isRefund nonce sw →
      SettledBy V older' b' isRefund' nonce sw' →
      Chained V (Admitted V) (newer' ++ b' :: older') →
      newer ++ b :: older = newer' ++ b' :: older' → older.length < older'.length → False := by
    intro isRefund isRefund' newer older newer' older' b b' sw sw' first second chained split below
    obtain ⟨between, rfl⟩ : ∃ between, older' = between ++ b :: older := by
      have part : b :: older <:+ older' :=
        List.suffix_of_suffix_length_le (List.suffix_append newer _)
          (split ▸ (List.suffix_cons b' older').trans (List.suffix_append newer' _)) below
      obtain ⟨between, same⟩ := part
      exact ⟨between, same.symm⟩
    obtain ⟨_, _, _, _, _, found⟩ := second.input
    exact first.gone chained.below.1 found second.nonce
  rcases lt_trichotomy older.length older'.length with lower | level | higher
  · exact earlier claim refund (split ▸ chained) split lower
  · -- In one block, the contract would be inside both windows at once.
    obtain ⟨-, same⟩ := List.append_inj' split (by simp [level])
    obtain ⟨rfl, rfl⟩ := List.cons.inj same
    obtain ⟨_, _, _, _, _, found⟩ := claim.input
    obtain ⟨_, _, _, _, _, found'⟩ := refund.input
    have registry := chained.below.1.swapRegistry
    have keys := registry.liveApart _ _ _ _ found found' (claim.nonce.trans refund.nonce.symm)
    rw [keys, found'] at found
    obtain rfl := Option.some.inj found
    have early := claim.window chained
    have late := refund.window chained
    simp only [SwapWindow, Bool.false_eq_true, ↓reduceIte, Config.swapReorgMargin,
      Config.powSeedLag] at early late
    omega
  · exact earlier refund claim chained split.symm higher

/-! ## Two chains -/

/-- What was funded stays funded. -/
theorem Chained.funded {newer older : List Block}
    (chained : Chained V (Admitted V) (newer ++ older)) {nonce : Bytes}
    (funded : Funded V older nonce) : Funded V (newer ++ older) nonce := by
  induction newer with
  | nil => exact funded
  | cons b newer ih =>
    rw [List.cons_append] at chained
    obtain ⟨_, cb, applied⟩ := chained.last fun _ _ admitted => admitted
    have before := ih chained.1
    unfold Funded at before ⊢
    rw [List.cons_append, applied.swapNonces]
    exact inSet_markAll_old before

theorem Chained.live_below {newer older : List Block}
    (chained : Chained V (Admitted V) (newer ++ older)) {key : Bytes} {sw : SwapEntry}
    (found : (replay V (newer ++ older)).swaps[key]? = some sw)
    (funded : Funded V older sw.claimR) : (replay V older).swaps[key]? = some sw := by
  induction newer with
  | nil => exact found
  | cons b newer ih =>
    rw [List.cons_append] at chained
    obtain ⟨below, ⟨skip, now, accepted⟩, _⟩ := chained
    obtain ⟨cb, txs, L', block, _, run, applied, _⟩ := below.regular.step accepted
    have state : replay V (b :: (newer ++ older)) = L' := by rw [replay, run]
    rw [List.cons_append, state, applied.swaps] at found
    have distinct : ((openedSwaps b.txs).map Prod.fst).Nodup := by
      rw [openedSwaps, List.map_map]
      exact block.openedSwaps_nodup
    rcases OrdMap.lookup_insertAll _ distinct found with opened | ⟨_, kept⟩
    · exact absurd (below.funded funded) (by
        rw [Funded, block.nonces_new _ opened]
        exact Bool.false_ne_true)
    · rw [OrdMap.lookup_eraseAll] at kept
      split_ifs at kept
      exact ih below kept

theorem SettledBy.live_at_fork {newer older base : List Block} {b : Block} {isRefund : Bool}
    {nonce : Bytes} {sw : SwapEntry} (settled : SettledBy V (older ++ base) b isRefund nonce sw)
    (chained : Chained V (Admitted V) (newer ++ b :: (older ++ base)))
    (funded : Funded V base nonce) :
    ∃ key : Bytes, (replay V base).swaps[key]? = some sw := by
  obtain ⟨_, _, input, _, _, found⟩ := settled.input
  exact ⟨hexstr input.swapKey, chained.below.1.live_below found (by rwa [settled.nonce])⟩

theorem Settled.split {branch base : List Block} {isRefund : Bool} {nonce : Bytes}
    (settled : Settled V (branch ++ base) isRefund nonce) :
    Settled V base isRefund nonce ∨ ∃ newer b older sw, branch = newer ++ b :: older ∧
      SettledBy V (older ++ base) b isRefund nonce sw := by
  obtain ⟨newer, b, older, sw, split, settledBy⟩ := settled
  rcases List.append_eq_append_iff.mp split with ⟨above, -, rest⟩ | ⟨above, front, rest⟩
  · exact Or.inl ⟨above, b, older, sw, rest, settledBy⟩
  · cases above with
    | nil => exact Or.inl ⟨[], b, older, sw, rest.symm, settledBy⟩
    | cons head above =>
      obtain ⟨rfl, rfl⟩ := List.cons.inj rest
      exact Or.inr ⟨newer, b, above, sw, front, settledBy⟩

theorem Settled.above {base : List Block} {isRefund : Bool} {nonce : Bytes}
    (settled : Settled V base isRefund nonce) (branch : List Block) :
    Settled V (branch ++ base) isRefund nonce := by
  obtain ⟨newer, b, older, sw, rfl, settledBy⟩ := settled
  exact ⟨branch ++ newer, b, older, sw, by rw [List.append_assoc], settledBy⟩

/-- **Claims and refunds across a reorg.** Take two chains of accepted blocks that share
their blocks up to a fork point, and a contract funded there. If the second chain has at
most `swapReorgMargin` blocks above the fork, the contract is not both claimed on the
first chain and refunded on the second one. -/
theorem claim_and_refund_apart {base active adopted : List Block}
    (onActive : Chained V (Admitted V) (active ++ base))
    (onAdopted : Chained V (Admitted V) (adopted ++ base))
    (short : adopted.length ≤ Config.swapReorgMargin) {nonce : Bytes}
    (funded : Funded V base nonce) :
    ¬ (Claimed V (active ++ base) nonce ∧ Refunded V (adopted ++ base) nonce) := by
  rintro ⟨claimed, refunded⟩
  rcases Settled.split claimed with early | ⟨newer, b, older, sw, rfl, claim⟩
  · exact onAdopted.claimed_or_refunded (early.above adopted) refunded
  rcases Settled.split refunded with early | ⟨newer', b', older', sw', rfl, refund⟩
  · exact onActive.claimed_or_refunded claimed (early.above _)
  -- Both settle the contract that was live at the fork, each inside its own window.
  rw [List.append_assoc, List.cons_append] at onActive onAdopted
  obtain ⟨key, found⟩ := claim.live_at_fork onActive funded
  obtain ⟨key', found'⟩ := refund.live_at_fork onAdopted funded
  have atFork : Chained V (Admitted V) base := onActive.below.1.below
  have same := atFork.swapRegistry.liveApart _ _ _ _ found found'
    (claim.nonce.trans refund.nonce.symm)
  rw [same, found'] at found
  obtain rfl := Option.some.inj found
  have early := claim.window onActive
  have late := refund.window onAdopted
  simp only [SwapWindow, Bool.false_eq_true, ↓reduceIte, List.length_append, List.length_cons]
    at early late short
  omega

end Settlement


/-! ## A long branch

On the network of `Forge` a contract is funded at height 61. On one branch it is claimed
in the next block, at the end of its window, and 511 empty blocks follow. Another branch
runs empty up to the unlock height, refunds the contract, and gathers the lead in work
that a deep fork needs.
-/

namespace Forge

open Testnet Checked

/-- What the first block minted. -/
@[irreducible] def subsidy : UInt64 := reward (replay net []) + 0

/-- The fee of each transaction. -/
def toll : UInt64 := 10_000_000

/-- The contract of both branches. -/
def contract : SwapOut where
  swapKey := zeroHash
  amount := subsidy - toll
  claimKey := zeroHash
  refundKey := zeroHash
  unlockHeight := 574
  claimA := zeroHash
  claimB := zeroHash
  claimR := zeroHash
  claimT := zeroHash

/-- The entry of the contract on the chain. -/
def locked : SwapEntry :=
  ⟨subsidy - toll, zeroHash, zeroHash, 574, zeroHash, zeroHash⟩

/-- The coin of the first block. -/
def minted : Bytes := wU64 subsidy ++ bigEndian 24 0

/-- The coin of the first block goes into the contract. -/
def fund : Transaction :=
  let unsigned : Transaction :=
    { inputs := [{ outputRef := payoutKey 1, pseudoCommitment := minted, keyImage := payoutKey 1 }]
      swapOutputs := [contract]
      fee := toll }
  let ctx := unsigned.coreHash net
  { unsigned with
    inputs := [{
      outputRef := payoutKey 1
      ownershipProof := payoutKey 1 ++ ctx
      pseudoCommitment := minted
      equalityProof := minted ++ ctx
      keyImage := payoutKey 1 }] }

/-- The contract is claimed, or refunded, into a new coin. -/
def settle (isRefund : Bool) : Transaction :=
  let unsigned : Transaction :=
    { swapInputs := [⟨zeroHash, isRefund, []⟩]
      outputs := [{
        oneTimeKey := payoutKey 0
        txPubKey := zeroHash
        commitment := wU64 (subsidy - toll - toll) ++ bigEndian 24 0 }]
      fee := toll }
  { unsigned with swapInputs := [⟨zeroHash, isRefund, zeroHash ++ unsigned.coreHash net⟩] }

theorem subsidy_bounds : 500_000_000_000 ≤ subsidy.toNat ∧ subsidy.toNat ≤ 40_000_000_000_000 := by
  obtain ⟨_, lower, upper⟩ := reward_spec (replay net [])
  rw [subsidy, UInt64.add_zero]
  exact ⟨lower, upper⟩

/-- The amounts, without overflow. -/
theorem amounts : (subsidy - toll).toNat = subsidy.toNat - 10_000_000 ∧
    (subsidy - toll - toll).toNat = subsidy.toNat - 20_000_000 := by
  have bounds := subsidy_bounds
  have fee : toll.toNat = 10_000_000 := by decide
  have first : (subsidy - toll).toNat = subsidy.toNat - 10_000_000 := by
    rw [UInt64.toNat_sub_of_le _ _ (by rw [UInt64.le_iff_toNat_le, fee]; omega), fee]
  have second : (subsidy - toll - toll).toNat = (subsidy - toll).toNat - 10_000_000 := by
    rw [UInt64.toNat_sub_of_le _ _ (by rw [UInt64.le_iff_toNat_le, fee, first]; omega), fee]
  exact ⟨first, by rw [second, first]; omega⟩

/-- A thousand for each byte is enough. -/
theorem fee_covers {size : Nat} {fee : UInt64} (bound : size ≤ 2 ^ 32)
    (paid : size * 1000 ≤ fee.toNat) :
    (mulU64 (UInt64.ofNat size) Config.minFeePerByte).2 = false ∧
      ¬ fee < (mulU64 (UInt64.ofNat size) Config.minFeePerByte).1 := by
  have word : (UInt64.ofNat size).toNat = size := by
    rw [UInt64.toNat_ofNat', Nat.mod_eq_of_lt (by omega)]
  have rate : Config.minFeePerByte.toNat = 1000 := by decide
  unfold mulU64
  split_ifs with zero
  · exact ⟨rfl, UInt64.not_lt_zero⟩
  · have product : (UInt64.ofNat size * Config.minFeePerByte).toNat = size * 1000 := by
      rw [UInt64.toNat_mul, word, rate, Nat.mod_eq_of_lt (by omega)]
    constructor
    · have positive : 0 < size := by
        rcases Nat.eq_zero_or_pos size with rfl | positive
        · exact absurd (Or.inl rfl) zero
        · exact positive
      have quotient : UInt64.ofNat size * Config.minFeePerByte / UInt64.ofNat size =
          Config.minFeePerByte := by
        rw [← UInt64.toNat_inj, UInt64.toNat_div, product, word, rate,
          Nat.mul_div_cancel_left _ positive]
      rw [quotient]
      simp
    · rw [UInt64.not_lt, UInt64.le_iff_toNat_le, product]
      exact paid

theorem toll_enough {size : Nat} (bound : size ≤ 10_000) :
    (mulU64 (UInt64.ofNat size) Config.minFeePerByte).2 = false ∧
      ¬ toll < (mulU64 (UInt64.ofNat size) Config.minFeePerByte).1 := by
  have fee : toll.toNat = 10_000_000 := by decide
  exact fee_covers (by omega) (by omega)

/-- The funding is small. -/
theorem fund_size : fund.serialize.length ≤ 10_000 := by
  have ctx : ∀ t : Transaction, (t.coreHash net).length = 32 := fun t => length_digest _
  have coin : minted.length = 32 := by simp [minted]
  have inputs : (putList Input.serialize fund.inputs).length ≤ 1000 := by
    simp only [fund, putList, Input.serialize, putU64, List.length_append, length_bigEndian,
      length_wB, payoutKey_length, ctx, coin, List.flatMap_cons, List.flatMap_nil,
      List.append_nil, List.length_cons, List.length_nil]
    omega
  have outputs : (putList SwapOut.serialize fund.swapOutputs).length ≤ 1000 := by
    simp only [fund, contract, putList, SwapOut.serialize, putU64, List.length_append,
      length_bigEndian, length_wB, length_wU64, List.flatMap_cons, List.flatMap_nil,
      List.append_nil, List.length_cons, List.length_nil, zeroHash, List.length_replicate]
    omega
  unfold Transaction.serialize
  simp only [List.length_append, length_bigEndian, length_wB, length_wU64]
  simp only [fund, length_putList_nil, wBool, List.length_cons, List.length_nil]
    at inputs outputs ⊢
  omega

/-- The settlement is small. -/
theorem settle_size (isRefund : Bool) : (settle isRefund).serialize.length ≤ 10_000 := by
  have ctx : ∀ t : Transaction, (t.coreHash net).length = 32 := fun t => length_digest _
  have inputs : (putList SwapIn.serialize (settle isRefund).swapInputs).length ≤ 1000 := by
    simp only [settle, putList, SwapIn.serialize, putU64, List.length_append, length_bigEndian,
      length_wB, wBool, ctx, List.flatMap_cons, List.flatMap_nil, zeroHash, List.length_replicate,
      List.append_nil, List.length_cons, List.length_nil]
    omega
  have outputs : (putList Output.serialize (settle isRefund).outputs).length ≤ 1000 := by
    simp only [settle, putList, Output.serialize, putU64, List.length_append,
      length_bigEndian, length_wB, length_wU64, List.flatMap_cons, List.flatMap_nil,
      payoutKey_length, List.append_nil, List.length_cons, List.length_nil, zeroHash,
      List.length_replicate]
    omega
  unfold Transaction.serialize
  simp only [List.length_append, length_bigEndian, length_wB, length_wU64]
  simp only [settle, length_putList_nil, wBool, List.length_cons, List.length_nil]
    at inputs outputs ⊢
  omega

/-- The contract can be funded with the first coin once that is mature. -/
theorem fund_valid {L : Ledger} {height : Nat} {prime : List Bytes}
    (coin : L.utxoEntry (payoutKey 1) = some ⟨payoutKey 1, minted, 1, true, 0, 0⟩)
    (untagged : L.tags.has (hexstr (payoutKey 1)) = false)
    (closed : L.swaps[hexstr zeroHash]? = none)
    (unused : inSet L.swapNonces (hexstr zeroHash) = false)
    (mature : 61 ≤ height) (early : height ≤ 62) :
    ∃ seen, validateTxLocked net L false fund height ⟨[], prime⟩ = .ok ([], seen) := by
  obtain ⟨amount, _⟩ := amounts
  have bounds := subsidy_bounds
  have fee : toll.toNat = 10_000_000 := by decide
  have supply : Config.moneySupplyCap.toNat = 18_400_000_000_000_000_000 := by decide
  have width : minted.length = 32 := by simp [minted]
  have shape : checkShape fund = .ok () := by
    obtain ⟨fits, enough⟩ := toll_enough fund_size
    have fee : fund.fee = toll := rfl
    unfold checkShape
    simp only [bind_ok, reject_ok, exists_const, fits, fee, enough]
    refine ⟨?_, ?_, ?_, ?_, ?_, ?_, ?_⟩ <;> simp [fund, Config.maxInputs, Config.maxOutputs]
  have inputs : fund.inputs.foldlM (checkInput net L false height (fund.coreHash net)) [] =
      .ok [hexstr (payoutKey 1), hexstr (payoutKey 1)] := by
    refine bind_ok.mpr ⟨_, checkInput_ok.mpr ⟨⟨payoutKey_length 1, width, payoutKey_length 1⟩,
      List.not_mem_nil, _, coin, ?_, Nat.zero_le _, fun _ => ⟨?_, ?_, ?_⟩, payoutKey 1, rfl,
      List.not_mem_nil, untagged, rfl⟩, rfl⟩
    · rintro ⟨-, immature⟩
      unfold Config.coinbaseMaturity at immature
      change height < 1 + 60 at immature
      omega
    · exact beq_self_eq_true _
    · change (minted.take 8 == minted.take 8 && minted ++ fund.coreHash net == _) = true
      rw [beq_self_eq_true]
      exact beq_self_eq_true _
    · exact beq_self_eq_true _
  have outputs : ∃ spent, fund.swapOutputs.foldlM (checkSwapOutput net L false height)
      ([hexstr (payoutKey 1), hexstr (payoutKey 1)], fund.fee) = .ok (spent, subsidy) := by
    refine ⟨_, bind_ok.mpr ⟨(_, subsidy), checkSwapOutput_ok.mpr ⟨?_, fun _ => ⟨rfl, rfl, rfl⟩,
      ⟨?_, closed⟩, ?_, unused, ⟨?_, ?_⟩, ?_, rfl, ?_⟩, rfl⟩⟩
    · exact ⟨rfl, rfl, rfl, rfl, rfl, rfl, rfl⟩
    · decide
    · decide
    · intro none
      have none : (subsidy - toll).toNat = (0 : UInt64).toNat := congrArg UInt64.toNat none
      rw [amount] at none
      change _ = 0 at none
      omega
    · change subsidy - toll ≤ _
      rw [UInt64.le_iff_toNat_le, amount, supply]
      omega
    · change height + 512 ≤ 574
      omega
    · change subsidy.toNat = toll.toNat + (subsidy - toll).toNat
      rw [amount, fee]
      omega
  obtain ⟨spent, outputs⟩ := outputs
  have conserved : net.verifyConservationGen (pseudoIns fund) (commitmentList fund.outputs) 0
      subsidy fund.conservation (fund.coreHash net) = true := by
    change ([amountOf minted].sum + ((0 : UInt64).toNat : Int) ==
      ([] : List Int).sum + (subsidy.toNat : Int)) = true
    rw [minted, amountOf_shown]
    simp
  refine ⟨⟨spent, prime⟩, ?_⟩
  have classical : hasPQ fund = false := rfl
  have normal : fund.isCoinbase = false := rfl
  unfold validateTxLocked validateLegs
  simp only [bind_ok, reject_ok, exists_const, pure_ok, Prod.exists, normal, classical,
    Bool.false_eq_true, not_false_eq_true, ↓reduceIte, true_and]
  refine ⟨(), shape, _, inputs, _, rfl, _, _, rfl, _, _, rfl, _, _, outputs, _, _, rfl, _, _, rfl,
    _, _, rfl, 0, rfl, _, rfl, subsidy, addU64_ok.mpr rfl, _, _, rfl, 0, rfl, ?_, rfl⟩
  rw [conserved]
  decide

theorem parseFullSig_zero {ctx : Bytes} (width : ctx.length = 32) :
    net.parseFullSig (zeroHash ++ ctx) = some ⟨zeroHash, ctx⟩ := by
  have total : (zeroHash ++ ctx).length = 64 := by
    rw [List.length_append, width]
    rfl
  change (if _ = 64 then some (FullSig.mk (List.take 32 _) (List.drop 32 _)) else none) = _
  have half : zeroHash.length = 32 := rfl
  rw [if_pos total, List.take_left' half, List.drop_left' half]

/-- A contract that is live can be settled inside the window. -/
theorem settle_valid {L : Ledger} {height : Nat} {prime : List Bytes} {isRefund : Bool}
    (live : L.swaps[hexstr zeroHash]? = some locked) (window : SwapWindow height isRefund locked)
    (new : L.coins.coinByKey (payoutKey 0) = none ∧
      L.outPrimes.has (hexstr (payoutKey 0)) = false)
    (unseen : hexstr (payoutKey 0) ∉ prime ∧ ascii "key:" ++ hexstr (payoutKey 0) ∉ prime) :
    ∃ seen, validateTxLocked net L false (settle isRefund) height ⟨[], prime⟩ =
      .ok ([payoutKey 0], seen) := by
  obtain ⟨amount, rest⟩ := amounts
  have bounds := subsidy_bounds
  have fee : toll.toNat = 10_000_000 := by decide
  have shape : checkShape (settle isRefund) = .ok () := by
    obtain ⟨fits, enough⟩ := toll_enough (settle_size isRefund)
    have fee : (settle isRefund).fee = toll := rfl
    unfold checkShape
    simp only [bind_ok, reject_ok, exists_const, fits, fee, enough]
    refine ⟨?_, ?_, ?_, ?_, ?_, ?_, ?_⟩ <;> simp [settle, Config.maxInputs, Config.maxOutputs]
  have parsed := @parseFullSig_zero ((settle isRefund).coreHash net) (length_digest _)
  have inputs : (settle isRefund).swapInputs.foldlM
      (checkSwapInput net L false height ((settle isRefund).coreHash net)) ([], 0) =
      .ok ([ascii "swap:" ++ hexstr zeroHash], subsidy - toll) := by
    refine bind_ok.mpr ⟨_, checkSwapInput_ok.mpr ⟨rfl, List.not_mem_nil, locked, live, _, parsed,
      window, fun _ => ?_, rfl, ?_⟩, rfl⟩
    · cases isRefund with
      | false => exact ⟨beq_self_eq_true _, by simp [net, primitives, locked]⟩
      | true => simp [SwapProofs, net, primitives, locked]
    · exact (Nat.zero_add _).symm
  have outputs := @checkOutputs_fresh digest L prime ⟨payoutKey 0, zeroHash,
    wU64 (subsidy - toll - toll) ++ bigEndian 24 0, [], 0, 0, [], [], 0⟩
    ⟨payoutKey_length 0, rfl, by simp⟩ new unseen
  have conserved : net.verifyConservationGen (pseudoIns (settle isRefund))
      (commitmentList (settle isRefund).outputs) (subsidy - toll) toll
      (settle isRefund).conservation ((settle isRefund).coreHash net) = true := by
    change (([] : List Int).sum + ((subsidy - toll).toNat : Int) ==
      [amountOf (wU64 (subsidy - toll - toll) ++ bigEndian 24 0)].sum + (toll.toNat : Int)) = true
    simp only [amountOf_shown, amount, rest, fee, beq_iff_eq, List.sum_nil, List.sum_singleton]
    omega
  have classical : hasPQ (settle isRefund) = false := rfl
  have normal : (settle isRefund).isCoinbase = false := rfl
  refine ⟨⟨[ascii "swap:" ++ hexstr zeroHash],
    hexstr (payoutKey 0) :: (ascii "key:" ++ hexstr (payoutKey 0)) :: prime⟩, ?_⟩
  unfold validateTxLocked validateLegs
  simp only [bind_ok, reject_ok, exists_const, pure_ok, Prod.exists, normal, classical,
    Bool.false_eq_true, not_false_eq_true, ↓reduceIte, true_and]
  refine ⟨(), shape, _, rfl, _, rfl, _, _, inputs, _, _, rfl, _, _, rfl, _, _, rfl, _, _, outputs,
    _, _, rfl, subsidy - toll, addU64_ok.mpr rfl, _, rfl, toll, addU64_ok.mpr rfl, _, _, rfl,
    subsidy - toll, addU64_ok.mpr rfl, ?_, rfl⟩
  rw [conserved]
  decide

/-! ### The branches -/

/-- A chain of one paid block. -/
def first : List Block := [forge 0 [] 0 []]

/-- The coin of the first block is mature. -/
def matured : List Block := idle 0 first 59 ++ first

/-- The contract is funded. -/
def base : List Block := forge 0 [fund] toll matured :: matured

/-- The block that claims, at height 62. -/
def claimBlock : Block := forge 1 [settle false] toll base

/-- The branch with the claim. -/
def active : List Block := idle 1 (claimBlock :: base) 511 ++ [claimBlock]

/-- Empty blocks up to the unlock height. -/
def waiting : List Block := idle 2 base 512

/-- The block that refunds, at height 574. -/
def refundBlock : Block := forge 2 [settle true] toll (waiting ++ base)

/-- The branch with the refund. -/
def adopted : List Block := idle 2 (refundBlock :: (waiting ++ base)) 99 ++ refundBlock :: waiting

theorem net_first : Net first := Net.genesis.extend (Nat.zero_lt_succ _) (Carried.none [])

theorem quiet_matured : Quiet first matured :=
  quiet_idle net_first 0 59 (by rw [first, List.length_singleton]; omega)

theorem length_matured : matured.length = 60 := by
  rw [matured, List.length_append, length_idle]
  rfl

theorem length_base : base.length = 61 := by
  rw [base, List.length_cons, length_matured]

theorem first_lists : chainLists net first =
    { outPrimes := [hexstr (payoutKey 1)]
      coins := [⟨payoutKey 1, minted, 1, true, 0, 0⟩] } := by
  rw [first, chainLists, StoreLists.append, forge_lists Net.genesis]
  rw [minted, subsidy]
  rfl

/-- No output of the chain pays the key of a settlement. -/
def Unpaid (chain : List Block) : Prop :=
  (∀ coin ∈ (chainLists net chain).coins, coin.key ≠ payoutKey 0) ∧
    hexstr (payoutKey 0) ∉ (chainLists net chain).outPrimes

theorem payoutKey_ne_zero {k : Nat} (positive : 0 < k) (small : k ≤ 2000) :
    payoutKey k ≠ payoutKey 0 := by
  intro same
  have := payoutKey_inj (by omega) (by omega) same
  omega

/-- Empty blocks leave the key unpaid. -/
theorem Quiet.unpaid {below chain : List Block} (quiet : Quiet below chain)
    (small : chain.length ≤ 2000) (unpaid : Unpaid below) : Unpaid chain := by
  obtain ⟨more, coins, keys⟩ := quiet.coins
  obtain ⟨morePrimes, primes, primeKeys⟩ := quiet.primes
  constructor
  · intro coin member
    rw [coins] at member
    rcases List.mem_append.mp member with old | fresh
    · exact unpaid.1 coin old
    · obtain ⟨k, positive, below, key⟩ := keys coin fresh
      rw [key]
      exact payoutKey_ne_zero positive (by omega)
  · intro member
    rw [primes] at member
    rcases List.mem_append.mp member with old | fresh
    · exact unpaid.2 old
    · obtain ⟨k, positive, below, same⟩ := primeKeys _ fresh
      exact payoutKey_ne_zero positive (by omega) (hexstr_injective same).symm

theorem tally_one {L : Ledger} {b : Block} {t : Transaction} {keys primes prime : List Bytes}
    {seen : Seen} (classical : hasPQ t = false) (fee : t.fee = toll)
    (valid : validateTxLocked net L false t b.header.height ⟨[], prime⟩ = .ok (primes, seen)) :
    [t].foldlM (tallyTx net (fun _ => false) L b) ⟨keys, ⟨[], prime⟩, 0⟩ =
      .ok ⟨keys ++ primes, seen, toll⟩ := by
  refine bind_ok.mpr ⟨_, ?_, rfl⟩
  have fees : addU64 0 t.fee "fee sum overflow" = .ok toll := by
    rw [fee]
    exact addU64_ok.mpr (Nat.zero_add _).symm
  unfold tallyTx
  rw [valid]
  change (if hasPQ t then _ else _) = _
  rw [classical]
  exact bind_ok.mpr ⟨toll, fees, rfl⟩

theorem no_swaps : (replay net matured).swaps = ∅ ∧ (replay net matured).swapNonces = ∅ := by
  have quiet : Quiet [] first := (Quiet.refl Net.genesis).extend (Nat.zero_lt_succ _)
  obtain ⟨_, applied⟩ := genesis_applied (V := net)
  rw [quiet_matured.swaps, quiet_matured.swapNonces, quiet.swaps, quiet.swapNonces]
  change (genesisLedger net).swaps = ∅ ∧ (genesisLedger net).swapNonces = ∅
  rw [applied.swaps, applied.swapNonces]
  exact ⟨rfl, rfl⟩

/-- The coin of the first block is unspent. -/
theorem first_coin :
    (replay net matured).utxoEntry (payoutKey 1) = some ⟨payoutKey 1, minted, 1, true, 0, 0⟩ ∧
      (replay net matured).tags.has (hexstr (payoutKey 1)) = false := by
  have quiet := quiet_matured
  have stores := (quiet.state.chained.mono fun L b => Verified.admitted).stores
  have unspent : (replay net matured).spent.has (hexstr (payoutKey 1)) = false := by
    rw [← Bool.not_eq_true, stores.spent.has, quiet.spent, first_lists]
    exact List.not_mem_nil
  have untagged : (replay net matured).tags.has (hexstr (payoutKey 1)) = false := by
    rw [← Bool.not_eq_true, stores.tags.has, quiet.tags, first_lists]
    exact List.not_mem_nil
  obtain ⟨more, coins, _⟩ := quiet.coins
  refine ⟨?_, untagged⟩
  rw [Ledger.utxoEntry, unspent]
  refine (stores.coins.lookup _ _).mpr ⟨?_, rfl⟩
  rw [coins, first_lists]
  exact List.mem_append_left _ List.mem_cons_self

/-- The block can carry the funding. -/
theorem fund_carried : Carried matured [fund] toll := by
  constructor
  case few => exact Nat.le_refl 1
  case normal =>
    intro t member
    obtain rfl := List.mem_singleton.mp member
    exact ⟨rfl, rfl, fund_size⟩
  case noLeaves => rfl
  case noPQ => rfl
  case outputs =>
    intro t member o listed
    obtain rfl := List.mem_singleton.mp member
    exact absurd listed List.not_mem_nil
  case small => decide
  case tally =>
    intro b height
    obtain ⟨coin, untagged⟩ := first_coin
    obtain ⟨swaps, nonces⟩ := no_swaps
    have closed : (replay net matured).swaps[hexstr zeroHash]? = none := by
      rw [swaps]
      simp
    have unused : inSet (replay net matured).swapNonces (hexstr zeroHash) = false := by
      rw [nonces, inSet]
      simp
    rw [length_matured] at height
    obtain ⟨seen, valid⟩ := @fund_valid (replay net matured) b.header.height
      [hexstr (payoutKey (matured.length + 1)),
        ascii "key:" ++ hexstr (payoutKey (matured.length + 1))]
      coin untagged closed unused (by omega) (by omega)
    exact ⟨seen, tally_one rfl rfl valid⟩

theorem length_hexstr (bytes : Bytes) : (hexstr bytes).length = 2 * bytes.length := by
  induction bytes with
  | nil => rfl
  | cons byte bytes ih =>
    change (hexstr bytes).length + 2 = _
    rw [ih, List.length_cons]
    omega

theorem primesOf_settle (isRefund : Bool) : primesOf net [settle isRefund] = [payoutKey 0] := by
  simp [primesOf, outputsOf, settle, net, primitives]

theorem payoutKey_unseen {k : Nat} (positive : 0 < k) (small : k ≤ 2000) :
    hexstr (payoutKey 0) ∉ [hexstr (payoutKey k), ascii "key:" ++ hexstr (payoutKey k)] ∧
      ascii "key:" ++ hexstr (payoutKey 0) ∉
        [hexstr (payoutKey k), ascii "key:" ++ hexstr (payoutKey k)] := by
  have apart : payoutKey 0 ≠ payoutKey k := (payoutKey_ne_zero positive small).symm
  have lengths : ∀ j k, hexstr (payoutKey j) ≠ ascii "key:" ++ hexstr (payoutKey k) := by
    intro j k same
    have widths := congrArg List.length same
    have label : (ascii "key:").length = 4 := by decide
    rw [List.length_append, length_hexstr, length_hexstr, payoutKey_length, payoutKey_length,
      label] at widths
    omega
  have inner : ascii "key:" ++ hexstr (payoutKey 0) ≠ ascii "key:" ++ hexstr (payoutKey k) :=
    fun same => apart (hexstr_injective (List.append_cancel_left same))
  simp only [List.mem_cons, List.not_mem_nil, or_false, not_or, hexstr_inj]
  exact ⟨⟨apart, lengths _ _⟩, (lengths _ _).symm, inner⟩

theorem settle_carried {chain : List Block} (state : Net chain) (small : chain.length < 2000)
    (unpaid : Unpaid chain) {isRefund : Bool}
    (live : (replay net chain).swaps[hexstr zeroHash]? = some locked)
    (window : SwapWindow (chain.length + 1) isRefund locked) :
    Carried chain [settle isRefund] toll := by
  constructor
  case few => exact Nat.le_refl 1
  case normal =>
    intro t member
    obtain rfl := List.mem_singleton.mp member
    exact ⟨rfl, rfl, settle_size isRefund⟩
  case noLeaves => rfl
  case noPQ => rfl
  case outputs =>
    intro t member o listed
    obtain rfl := List.mem_singleton.mp member
    obtain rfl := List.mem_singleton.mp listed
    rfl
  case small => decide
  case tally =>
    intro b height
    have stores := (state.chained.mono fun L b => Verified.admitted).stores
    obtain ⟨seen, valid⟩ := settle_valid live window (key_new stores unpaid.1 unpaid.2)
      (payoutKey_unseen (Nat.succ_pos _) small)
    rw [← height] at valid
    rw [primesOf_settle]
    exact ⟨seen, tally_one rfl rfl valid⟩

theorem net_base : Net base :=
  quiet_matured.state.extend (by rw [length_matured]; omega) fund_carried

theorem unpaid_matured : Unpaid matured := by
  refine quiet_matured.unpaid (by rw [length_matured]; omega) ?_
  have apart : payoutKey 1 ≠ payoutKey 0 := payoutKey_ne_zero Nat.one_pos (by omega)
  rw [Unpaid, first_lists]
  constructor
  · intro coin member
    obtain rfl := List.mem_singleton.mp member
    exact apart
  · intro member
    exact apart (hexstr_injective (List.mem_singleton.mp member)).symm

/-- The key is unpaid on both branches. -/
theorem unpaid_base : Unpaid base := by
  obtain ⟨coins, primes⟩ := unpaid_matured
  have apart : payoutKey (matured.length + 1) ≠ payoutKey 0 :=
    payoutKey_ne_zero (Nat.succ_pos _) (by rw [length_matured]; omega)
  rw [Unpaid, base, chainLists, StoreLists.append, forge_lists quiet_matured.state]
  constructor
  · intro coin member
    rcases List.mem_append.mp member with old | fresh
    · exact coins coin old
    · obtain rfl := List.mem_singleton.mp fresh
      exact apart
  · intro member
    rcases List.mem_append.mp member with old | fresh
    · exact primes old
    · exact apart (hexstr_injective (List.mem_singleton.mp fresh)).symm

/-- The contract is live and its nonce used. -/
theorem contract_live : (replay net base).swaps[hexstr zeroHash]? = some locked ∧
    Funded net base zeroHash := by
  obtain ⟨_, applied, _⟩ := @forge_applied matured quiet_matured.state 0 [fund] toll
    (by rw [length_matured]; omega) fund_carried
  obtain ⟨swaps, nonces⟩ := no_swaps
  have txs := @forge_txs matured quiet_matured.state 0 [fund] toll
  constructor
  · rw [base, applied.swaps, txs]
    change (OrdMap.insertAll _ [(hexstr zeroHash, locked)])[hexstr zeroHash]? = some locked
    simp [OrdMap.insertAll]
  · rw [Funded, base, applied.swapNonces, txs]
    change inSet (markAll _ [hexstr zeroHash]) (hexstr zeroHash) = true
    rw [inSet, lookup_markAll, if_pos List.mem_cons_self]
    rfl

theorem net_claimed : Net (claimBlock :: base) := by
  refine net_base.extend (by rw [length_base]; omega)
    (settle_carried net_base (by rw [length_base]; omega) unpaid_base contract_live.1 ?_)
  rw [length_base]
  change 512 ≤ (574 : UInt64).toNat ∧ 61 + 1 ≤ (574 : UInt64).toNat - 512
  decide

theorem quiet_active : Quiet (claimBlock :: base) (active ++ base) := by
  have quiet := quiet_idle net_claimed 1 511 (by rw [List.length_cons, length_base]; omega)
  rw [active, List.append_assoc]
  exact quiet

theorem quiet_waiting : Quiet base (waiting ++ base) :=
  quiet_idle net_base 2 512 (by rw [length_base]; omega)

theorem length_waiting : (waiting ++ base).length = 573 := by
  rw [List.length_append, waiting, length_idle, length_base]

theorem net_refunded : Net (refundBlock :: (waiting ++ base)) := by
  have live : (replay net (waiting ++ base)).swaps[hexstr zeroHash]? = some locked := by
    rw [quiet_waiting.swaps]
    exact contract_live.1
  refine quiet_waiting.state.extend (by rw [length_waiting]; omega)
    (settle_carried quiet_waiting.state (by rw [length_waiting]; omega)
      (quiet_waiting.unpaid (by rw [length_waiting]; omega) unpaid_base) live ?_)
  rw [length_waiting]
  change (574 : UInt64).toNat ≤ 573 + 1
  decide

theorem quiet_adopted : Quiet (refundBlock :: (waiting ++ base)) (adopted ++ base) := by
  have quiet := quiet_idle net_refunded 2 99 (by rw [List.length_cons, length_waiting]; omega)
  rw [adopted, List.append_assoc]
  exact quiet

/-! ### The decision -/

/-- A block of a given nonce, above one height and up to another. -/
structure Marked (nonce low high : Nat) (b : Block) : Prop where
  difficulty : b.header.difficulty = 64
  above : low < b.header.height
  within : b.header.height ≤ high
  id : b.header.id net = idAt b.header.height nonce

/-- A block shows its nonce and its height. -/
theorem marked_forge {chain : List Block} (state : Net chain) (nonce : Nat)
    (extra : List Transaction) (fees : UInt64) {low high : Nat} (above : low ≤ chain.length)
    (within : chain.length < high) : Marked nonce low high (forge nonce extra fees chain) := by
  have height := @forge_height chain state nonce extra fees
  constructor
  case difficulty => rfl
  case above => omega
  case within => omega
  case id => rw [height]; exact forge_id state nonce extra fees

/-- So do empty blocks. -/
theorem marked_idle {below : List Block} (state : Net below) (nonce count : Nat) {low high : Nat}
    (above : low ≤ below.length) (within : below.length + count ≤ high)
    (small : below.length + count ≤ 2000) :
    ∀ b ∈ idle nonce below count, Marked nonce low high b := by
  induction count with
  | zero => exact fun b member => absurd member List.not_mem_nil
  | succ count ih =>
    intro b member
    rcases List.mem_cons.mp member with rfl | member
    · have quiet := quiet_idle state nonce count (by omega)
      exact marked_forge quiet.state nonce [] 0 (by rw [List.length_append]; omega)
        (by rw [List.length_append, length_idle]; omega)
    · exact ih (by omega) (by omega) b member

/-- The nonces of the common part. -/
theorem marked_base : ∀ b ∈ base, Marked 0 0 61 b := by
  intro b member
  have bound := length_matured
  rcases List.mem_cons.mp member with rfl | member
  · exact marked_forge quiet_matured.state 0 [fund] toll (Nat.zero_le _) (by omega)
  rcases List.mem_append.mp member with member | member
  · exact marked_idle net_first 0 59 (Nat.zero_le _) (by rw [first, List.length_singleton]; omega)
      (by rw [first, List.length_singleton]; omega) b member
  · obtain rfl := List.mem_singleton.mp member
    exact marked_forge Net.genesis 0 [] 0 (Nat.zero_le _) (by rw [List.length_nil]; omega)

theorem marked_active : ∀ b ∈ active, Marked 1 61 573 b := by
  intro b member
  have bound := length_base
  rcases List.mem_append.mp member with member | member
  · exact marked_idle net_claimed 1 511 (by rw [List.length_cons]; omega)
      (by rw [List.length_cons]; omega) (by rw [List.length_cons]; omega) b member
  · obtain rfl := List.mem_singleton.mp member
    exact marked_forge net_base 1 [settle false] toll (by omega) (by omega)

theorem marked_adopted : ∀ b ∈ adopted, Marked 2 61 673 b := by
  intro b member
  have bound := length_base
  have waited := length_waiting
  rcases List.mem_append.mp member with member | member
  · exact marked_idle net_refunded 2 99 (by rw [List.length_cons]; omega)
      (by rw [List.length_cons]; omega) (by rw [List.length_cons]; omega) b member
  rcases List.mem_cons.mp member with rfl | member
  · exact marked_forge quiet_waiting.state 2 [settle true] toll (by omega) (by omega)
  · exact marked_idle net_base 2 512 (by omega) (by omega) (by omega) b member

theorem Marked.id_ne {nonce nonce' low high low' high' : Nat} {b c : Block}
    (marked : Marked nonce low high b) (other : Marked nonce' low' high' c) (apart : nonce ≠ nonce')
    (small : high < 2000 ∧ high' < 2000 ∧ nonce < 2000 ∧ nonce' < 2000) :
    b.header.id net ≠ c.header.id net := by
  intro same
  have within := marked.within
  have within' := other.within
  rw [marked.id, other.id] at same
  exact apart (idAt_inj (by omega) (by omega) (by omega) (by omega) same).2

theorem length_active : active.length = 512 := by
  rw [active, List.length_append, length_idle]
  rfl

theorem length_adopted : adopted.length = 612 := by
  rw [adopted, List.length_append, length_idle, List.length_cons, waiting, length_idle]

/-- The work of a branch. -/
theorem chainWork_branch {nonce low high : Nat} {blocks : List Block}
    (marked : ∀ b ∈ blocks, Marked nonce low high b) :
    chainWork (blocks ++ base) = 64 * blocks.length + 3968 := by
  have work : ∀ {nonce low high : Nat} {blocks : List Block},
      (∀ b ∈ blocks, Marked nonce low high b) →
      (blocks.map fun b => b.header.difficulty).sum = 64 * blocks.length := by
    intro nonce low high blocks
    induction blocks with
    | nil => exact fun _ => rfl
    | cons b blocks ih =>
      intro marked
      rw [List.map_cons, List.sum_cons,
        ih fun other member => marked other (List.mem_cons_of_mem _ member),
        (marked b List.mem_cons_self).difficulty, List.length_cons]
      omega
  rw [chainWork, List.map_append, List.sum_append, work marked, work marked_base, length_base]
  unfold Config.genesisDifficulty
  omega

/-- The fork is at the tip of the common part. -/
theorem reorgDepth_branch {blocks : List Block} (marked : ∀ b ∈ blocks, Marked 2 61 673 b) :
    reorgDepth net (active ++ base) (blocks ++ base) = 512 := by
  have apart : ∀ b ∈ active, b.header.id net ∉ (blocks ++ base).map fun c => c.header.id net := by
    intro b member listed
    obtain ⟨c, inBranch, same⟩ := List.mem_map.mp listed
    have mark := marked_active b member
    rcases List.mem_append.mp inBranch with inBranch | inBranch
    · exact mark.id_ne (marked c inBranch) (by decide) (by omega) same.symm
    · exact mark.id_ne (marked_base c inBranch) (by decide) (by omega) same.symm
  rw [reorgDepth, List.takeWhile_append_of_pos (by simpa using apart), base,
    List.takeWhile_cons_of_neg (by simp), List.append_nil, length_active]

theorem chained_active : Chained net (Admitted net) (active ++ base) :=
  quiet_active.state.chained.mono fun _ _ => Verified.admitted

theorem chained_adopted : Chained net (Admitted net) (adopted ++ base) :=
  quiet_adopted.state.chained.mono fun _ _ => Verified.admitted

theorem active_tip : ∃ tip rest, active = tip :: rest ∧ tip.header.id net = idAt 573 1 := by
  have length := length_active
  cases split : active with
  | nil => rw [split] at length; exact absurd length (by decide)
  | cons tip rest =>
    rw [split, List.length_cons] at length
    have chained := chained_active
    rw [split] at chained
    have height := @Chained.height net [] (rest ++ base) tip chained
    rw [List.length_append, length_base] at height
    have mark := marked_active tip (by rw [split]; exact List.mem_cons_self)
    have same : tip.header.height = 573 := by omega
    exact ⟨tip, rest, rfl, by rw [mark.id, same]⟩

/-- Which part of the branch with the refund is adopted. -/
theorem adopts_part {newer older : List Block} {tip : Block}
    (split : adopted = newer ++ tip :: older) :
    adopts net (active ++ base) tip (older ++ base) = true ↔ newer = [] := by
  have marked : ∀ b ∈ tip :: older, Marked 2 61 673 b := by
    intro b member
    exact marked_adopted b (by rw [split]; exact List.mem_append_right _ member)
  have count := length_adopted
  rw [split, List.length_append, List.length_cons] at count
  have chained := chained_adopted
  rw [split, List.append_assoc, List.cons_append] at chained
  have height := chained.height
  rw [List.length_append, length_base] at height
  have depth := reorgDepth_branch marked
  have work := chainWork_branch marked
  have activeWork := chainWork_branch marked_active
  rw [length_active] at activeWork
  rw [List.cons_append] at depth work
  rw [List.length_cons] at work
  obtain ⟨best, rest, activeSplit, bestId⟩ := active_tip
  have head : (active ++ base).head? = some best := by rw [activeSplit]; rfl
  have mark := marked tip List.mem_cons_self
  have behind : newer = [] → tip.header.prevHash ≠ idAt 573 1 := by
    rintro rfl
    cases older with
    | nil => exact absurd count (by decide)
    | cons parent older =>
      obtain ⟨below, ⟨skip, now, accepted⟩, _⟩ := chained.below
      obtain ⟨_, _, _, block, _⟩ := below.regular.step accepted
      obtain ⟨header, found, checks⟩ := block.header
      rw [List.cons_append] at below found
      rw [below.tip fun _ _ admitted => admitted] at found
      obtain rfl := Option.some.inj found
      have parentMark := marked parent (List.mem_cons_of_mem _ List.mem_cons_self)
      have within := parentMark.within
      rw [checks.prevHash, parentMark.id]
      intro same
      exact absurd (idAt_inj (by omega) (by omega) (by omega) (by omega) same).2 (by decide)
  unfold adopts
  simp only [head, Option.map_some, Option.getD_some, depth, work, activeWork, bestId, mark.id,
    mark.difficulty, Config.maxReorgDepth, Config.powSeedLag, Config.partitionRecoveryMargin,
    Bool.and_eq_true, Bool.or_eq_true, decide_eq_true_eq]
  constructor
  · rintro ⟨_, shallow | ⟨_, lead⟩⟩
    · omega
    · exact List.length_eq_zero_iff.mp (by omega)
  · intro whole
    have none : newer.length = 0 := by rw [whole]; rfl
    exact ⟨⟨Or.inl (by omega), behind whole⟩, Or.inr ⟨by omega, by omega⟩⟩

theorem claimed_active : Claimed net (active ++ base) zeroHash := by
  have txs := @forge_txs base net_base 1 [settle false] toll
  refine ⟨idle 1 (claimBlock :: base) 511, claimBlock, base, locked, ?_, ⟨?_, rfl⟩⟩
  · rw [active, List.append_assoc]
    rfl
  · refine ⟨settle false, ?_, _, List.mem_cons_self, rfl, contract_live.1⟩
    rw [claimBlock, txs]
    exact List.mem_cons_of_mem _ List.mem_cons_self

theorem refunded_adopted : Refunded net (adopted ++ base) zeroHash := by
  have txs := @forge_txs _ quiet_waiting.state 2 [settle true] toll
  refine ⟨idle 2 (refundBlock :: (waiting ++ base)) 99, refundBlock, waiting ++ base, locked, ?_,
    ⟨?_, rfl⟩⟩
  · rw [adopted, List.append_assoc]
    rfl
  · refine ⟨settle true, ?_, _, List.mem_cons_self, rfl, ?_⟩
    · rw [refundBlock, txs]
      exact List.mem_cons_of_mem _ List.mem_cons_self
    · rw [quiet_waiting.swaps]
      exact contract_live.1

end Forge

/-- The branch with the refund is adopted, at its last block and not before, by a node on
the branch with the claim. -/
theorem claimed_then_refunded :
    Chained Forge.net (Admitted Forge.net) (Forge.active ++ Forge.base) ∧
      Chained Forge.net (Admitted Forge.net) (Forge.adopted ++ Forge.base) ∧
      (∀ newer tip older, Forge.adopted = newer ++ tip :: older →
        (adopts Forge.net (Forge.active ++ Forge.base) tip (older ++ Forge.base) = true ↔
          newer = [])) ∧
      Forge.adopted ≠ [] ∧
      reorgDepth Forge.net (Forge.active ++ Forge.base) (Forge.adopted ++ Forge.base) =
        Config.powSeedLag ∧
      Funded Forge.net Forge.base zeroHash ∧
      Claimed Forge.net (Forge.active ++ Forge.base) zeroHash ∧
      Refunded Forge.net (Forge.adopted ++ Forge.base) zeroHash := by
  refine ⟨Forge.chained_active, Forge.chained_adopted, fun _ _ _ => Forge.adopts_part, ?_,
    Forge.reorgDepth_branch Forge.marked_adopted, Forge.contract_live.2, Forge.claimed_active,
    Forge.refunded_adopted⟩
  intro empty
  have length := Forge.length_adopted
  rw [empty] at length
  exact absurd length (by decide)

/-- With the claim on one side and 512 empty blocks on the other the theorem applies. -/
theorem waiting_branch_safe :
    Claimed Forge.net (Forge.active ++ Forge.base) zeroHash ∧
      ¬ Refunded Forge.net (Forge.waiting ++ Forge.base) zeroHash := by
  have length : Forge.waiting.length ≤ Config.swapReorgMargin := by
    rw [Forge.waiting, Forge.length_idle]
    exact Nat.le_refl _
  have apart := claim_and_refund_apart Forge.chained_active
    (Forge.quiet_waiting.state.chained.mono fun _ _ => Verified.admitted) length
    Forge.contract_live.2
  exact ⟨Forge.claimed_active, fun refunded => apart ⟨Forge.claimed_active, refunded⟩⟩

end Obscura
