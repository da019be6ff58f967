import Obscura.Anchors
import Obscura.Lib.Persist
import Obscura.MempoolIndex

/-! # Pending transactions after a block

A pending transaction that shares no spend key with a block finds every record it spends
unchanged behind the block. It can still become invalid: a window of heights closes, the
block creates a key that the transaction creates too, or one of its anchors leaves the
window. These are the only ways (`Survives`).
-/

namespace Obscura

open Wire Tx Checked

/-! ## What a block leaves in place -/

section Step

variable {V : Primitives} {skip : Transaction → Bool} {now : Int} {L L' : Ledger} {b : Block}
  {cb : Transaction} {txs : List Transaction} {lists : StoreLists}

/-- The outputs of a block, its coinbase included. -/
def outputsMade (b : Block) : List Output := b.txs.flatMap Transaction.outputs

theorem mem_outputsOf {txs : List Transaction} {o : Output} :
    (∃ flag, (flag, o) ∈ outputsOf txs) ↔ o ∈ txs.flatMap Transaction.outputs := by
  simp only [outputsOf, List.mem_flatMap, List.mem_map, Prod.mk.injEq]
  constructor
  · rintro ⟨flag, t, member, o', listed, _, rfl⟩
    exact ⟨t, member, listed⟩
  · rintro ⟨t, member, listed⟩
    exact ⟨t.isCoinbase, t, member, o, listed, rfl, rfl⟩

/-- The stores behind a block. -/
structure StoresBehind (V : Primitives) (L : Ledger) (b : Block) (L' : Ledger) : Prop where
  spent : ∀ key, L'.spent.has key = true ↔ L.spent.has key = true ∨ key ∈ spentRefs b.txs
  tags : ∀ tag, L'.tags.has (hexstr tag) = true ↔
    L.tags.has (hexstr tag) = true ∨ tag ∈ blockTagsFromTxs V b.txs
  primes : ∀ prime, L'.outPrimes.has (hexstr prime) = true ↔
    L.outPrimes.has (hexstr prime) = true ∨ prime ∈ primesOf V b.txs
  coins : ∀ key coin, L.coins.coinByKey key = some coin → L'.coins.coinByKey key = some coin
  newKeys : ∀ key, L'.coins.coinByKey key = none ↔ L.coins.coinByKey key = none ∧
    ∀ o ∈ outputsMade b, o.oneTimeKey ≠ key
  indexed : ∀ index coin, L.coins.coinByIndex index = some coin →
    L'.coins.coinByIndex index = some coin
  count : L.coins.coinCount ≤ L'.coins.coinCount

/-- What the stores say behind a block. -/
theorem Ledger.Stores.behind (stores : L.Stores V lists)
    (stores' : L'.Stores V (lists.append (blockLists V lists.coins.length b))) :
    StoresBehind V L b L' := by
  constructor
  case spent =>
    intro key
    rw [stores'.spent.has, stores.spent.has]
    exact List.mem_append
  case tags =>
    intro tag
    rw [stores'.tags.has, stores.tags.has]
    change hexstr tag ∈ lists.tags ++ (blockTagsFromTxs V b.txs).map hexstr ↔ _
    rw [List.mem_append, List.mem_map_of_injective hexstr_injective]
  case primes =>
    intro prime
    rw [stores'.outPrimes.has, stores.outPrimes.has]
    change hexstr prime ∈ lists.outPrimes ++ (primesOf V b.txs).map hexstr ↔ _
    rw [List.mem_append, List.mem_map_of_injective hexstr_injective]
  case coins =>
    intro key coin found
    obtain ⟨member, same⟩ := (stores.coins.byKey key coin).mp found
    exact (stores'.coins.byKey key coin).mpr ⟨List.mem_append_left _ member, same⟩
  case newKeys =>
    intro key
    have listed : key ∈ (lists.append (blockLists V lists.coins.length b)).coins.map CoinInfo.key ↔
        key ∈ lists.coins.map CoinInfo.key ∨ ∃ o ∈ outputsMade b, o.oneTimeKey = key := by
      change key ∈ (lists.coins ++ coinsOf _ _ (outputsOf b.txs)).map CoinInfo.key ↔ _
      rw [List.map_append, List.mem_append, coinsOf_key]
      refine or_congr_right ?_
      rw [List.mem_map]
      constructor
      · rintro ⟨⟨flag, o⟩, member, same⟩
        exact ⟨o, mem_outputsOf.mp ⟨flag, member⟩, same⟩
      · rintro ⟨o, member, same⟩
        obtain ⟨flag, listed⟩ := mem_outputsOf.mpr member
        exact ⟨(flag, o), listed, same⟩
    have absent : ∀ {s : CoinStore} {coins : List CoinInfo}, s.Lists coins →
        (s.coinByKey key = none ↔ key ∉ coins.map CoinInfo.key) :=
      fun holds => ⟨holds.absent, holds.unknown⟩
    rw [absent stores'.coins, absent stores.coins, listed, not_or]
    simp only [not_exists, not_and, ne_eq]
  case indexed =>
    intro index coin found
    have old := stores.coins.byIndex index
    have new := stores'.coins.byIndex index
    unfold CoinStore.coinByIndex at found ⊢
    rw [old] at found
    rw [new]
    change (lists.coins ++ _)[index]? = some coin
    rw [List.getElem?_append_left (List.getElem?_eq_some_iff.mp found).1]
    exact found
  case count =>
    rw [stores'.coinCount, stores.coinCount]
    change lists.coins.length ≤ (lists.coins ++ _).length
    rw [List.length_append]
    exact Nat.le_add_right _ _

theorem StoresBehind.utxo (behind : StoresBehind V L b L') {ref : Bytes} {entry : CoinInfo}
    (found : L.utxoEntry ref = some entry) (kept : hexstr ref ∉ spentRefs b.txs) :
    L'.utxoEntry ref = some entry := by
  unfold Ledger.utxoEntry at found ⊢
  split_ifs at found with spent
  have unspent : L'.spent.has (hexstr ref) ≠ true := by
    rw [ne_eq, behind.spent, not_or]
    exact ⟨spent, kept⟩
  rw [if_neg unspent]
  exact behind.coins ref entry found

/-- A pool that is complete and mature stays as it is. -/
theorem StoresBehind.ring (behind : StoresBehind V L b L') {poolID height : Nat}
    {ring : List CoinInfo} (found : L.poolMembers poolID height = some ring) {later : Nat}
    (after : height ≤ later) : L'.poolMembers poolID later = some ring := by
  unfold Ledger.poolMembers at found ⊢
  dsimp only at found ⊢
  split_ifs at found with huge short
  rw [if_neg huge]
  have count := behind.count
  rw [if_neg (by omega)]
  have members : ∀ (indices : List Nat) (ring : List CoinInfo),
      indices.mapM (L.poolMember height) = some ring →
      indices.mapM (L'.poolMember later) = some ring := by
    intro indices
    induction indices with
    | nil => exact fun ring same => same
    | cons index indices ih =>
      intro ring found
      simp only [List.mapM_cons, Option.bind_eq_bind, Option.bind_eq_some_iff] at found ⊢
      obtain ⟨coin, first, rest, others, same⟩ := found
      refine ⟨coin, ?_, rest, ih rest others, same⟩
      unfold Ledger.poolMember at first ⊢
      rw [Option.filter_eq_some_iff] at first ⊢
      obtain ⟨listed, mature⟩ := first
      refine ⟨behind.indexed index coin listed, ?_⟩
      simp only [Bool.not_eq_true', Bool.and_eq_false_iff, decide_eq_false_iff_not] at mature ⊢
      exact mature.imp_right fun old => by omega
  exact members _ _ found

section Contracts

variable (accepted : BlockAccepted V skip now L b cb txs) (applied : Applied V L b cb L')

include accepted

theorem BlockAccepted.openedSwaps_new : ∀ key ∈ (openedSwaps b.txs).map Prod.fst,
    L.swaps[key]? = none := by
  intro key member
  simp only [openedSwaps, List.map_map, List.mem_map, Function.comp_apply] at member
  obtain ⟨so, made, rfl⟩ := member
  rw [accepted.swapOutputs_eq, List.mem_flatMap] at made
  obtain ⟨t, txMember, listed⟩ := made
  obtain ⟨_, _, _, legs⟩ := accepted.legs t txMember
  exact (legs.swapOutputs so listed).1

theorem BlockAccepted.openedVaults_new : ∀ key ∈ (openedVaults b.txs b.header.height).map Prod.fst,
    L.vaults[key]? = none := by
  intro key member
  simp only [openedVaults, List.map_map, List.mem_map, Function.comp_apply] at member
  obtain ⟨vo, made, rfl⟩ := member
  rw [accepted.vaultOutputs_eq, List.mem_flatMap] at made
  obtain ⟨t, txMember, listed⟩ := made
  obtain ⟨_, _, _, legs⟩ := accepted.legs t txMember
  exact legs.vaultOutputs vo listed

include applied

theorem swap_behind {key : Bytes} {sw : SwapEntry} (found : L.swaps[key]? = some sw)
    (kept : key ∉ closedSwaps b.txs) : L'.swaps[key]? = some sw := by
  rw [applied.swaps]
  refine OrdMap.lookup_updated_kept _ found kept fun listed => ?_
  rw [accepted.openedSwaps_new key listed] at found
  exact Option.some_ne_none sw found.symm

theorem vault_behind {key : Bytes} {v : VaultEntry} (found : L.vaults[key]? = some v)
    (kept : key ∉ closedVaults b.txs) : L'.vaults[key]? = some v := by
  rw [applied.vaults]
  refine OrdMap.lookup_updated_kept _ found kept fun listed => ?_
  rw [accepted.openedVaults_new key listed] at found
  exact Option.some_ne_none v found.symm

theorem noSwap_behind {key : Bytes} (absent : L.swaps[hexstr key]? = none) :
    L'.swaps[hexstr key]? = none ↔
      ∀ made ∈ b.txs.flatMap Transaction.swapOutputs, made.swapKey ≠ key := by
  have distinct : ((openedSwaps b.txs).map Prod.fst).Nodup := by
    rw [openedSwaps, List.map_map]
    exact accepted.openedSwaps_nodup
  rw [applied.swaps, OrdMap.lookup_updated_new _ distinct absent]
  simp only [openedSwaps, List.map_map, List.mem_map, Function.comp_apply, not_exists, not_and,
    hexstr_inj, ne_eq]

theorem noVault_behind {key : Bytes} (absent : L.vaults[hexstr key]? = none) :
    L'.vaults[hexstr key]? = none ↔
      ∀ made ∈ b.txs.flatMap Transaction.vaultOutputs, made.vaultKey ≠ key := by
  have distinct : ((openedVaults b.txs b.header.height).map Prod.fst).Nodup := by
    rw [openedVaults, List.map_map]
    exact accepted.openedVaults_nodup
  rw [applied.vaults, OrdMap.lookup_updated_new _ distinct absent]
  simp only [openedVaults, List.map_map, List.mem_map, Function.comp_apply, not_exists, not_and,
    hexstr_inj, ne_eq]

end Contracts

theorem nonce_behind (applied : Applied V L b cb L') {nonce : Bytes}
    (unused : inSet L.swapNonces (hexstr nonce) = false) :
    inSet L'.swapNonces (hexstr nonce) = false ↔
      ∀ made ∈ b.txs.flatMap Transaction.swapOutputs, made.claimR ≠ nonce := by
  rw [applied.swapNonces, ← Bool.not_eq_true, inSet_markAll_iff, not_or, unused]
  simp only [openedNonces, List.mem_map, not_exists, not_and, hexstr_inj, ne_eq, Bool.false_eq_true,
    not_false_eq_true, and_true]

theorem note_behind (applied : Applied V L b cb L') {key : Bytes}
    (unspent : inSet L.zkNull key = false) (kept : key ∉ noteNullifiers b.txs) :
    inSet L'.zkNull key = false := by
  rw [applied.zkNull, ← Bool.not_eq_true, inSet_markAll_iff, not_or, unspent]
  exact ⟨kept, Bool.false_ne_true⟩

end Step

/-! ## What a transaction shares with a block -/

/-- The block spends nothing that the transaction spends. -/
structure Apart (V : Primitives) (b : Block) (t : Transaction) : Prop where
  refs : ∀ input ∈ t.inputs, hexstr input.outputRef ∉ spentRefs b.txs
  images : ∀ input ∈ t.inputs, input.keyImage.length = 32 →
    recordedTag V input.keyImage ∉ blockTagsFromTxs V b.txs
  tags : ∀ input ∈ t.anonInputs, recordedTag V input.tag ∉ blockTagsFromTxs V b.txs
  swaps : ∀ input ∈ t.swapInputs, hexstr input.swapKey ∉ closedSwaps b.txs
  vaults : ∀ input ∈ t.vaultInputs, hexstr input.vaultKey ∉ closedVaults b.txs
  notes : ∀ input ∈ t.zkInputs, hexstr input.nullifier ∉ noteNullifiers b.txs
  confidential : ∀ s ∈ t.czkSpends, hexstr s.nullifier ∉ noteNullifiers b.txs

/-- The transaction is still valid in the block behind `b`, as far as heights, created
keys and anchors go. -/
structure Survives (V : Primitives) (L : Ledger) (b : Block) (t : Transaction) : Prop where
  swapInputs : ∀ input ∈ t.swapInputs, ∀ sw, L.swaps[hexstr input.swapKey]? = some sw →
    SwapWindow (b.header.height + 1) input.isRefund sw
  vaultInputs : ∀ input ∈ t.vaultInputs, ∀ v, L.vaults[hexstr input.vaultKey]? = some v →
    ∃ cap, vaultYieldAt v (b.header.height + 1) = some cap ∧ input.yield ≤ cap
  swapOutputs : ∀ so ∈ t.swapOutputs,
    (∀ made ∈ b.txs.flatMap Transaction.swapOutputs,
      made.swapKey ≠ so.swapKey ∧ made.claimR ≠ so.claimR) ∧
    b.header.height + 1 + Config.swapReorgMargin ≤ so.unlockHeight.toNat
  vaultOutputs : ∀ vo ∈ t.vaultOutputs, ∀ made ∈ b.txs.flatMap Transaction.vaultOutputs,
    made.vaultKey ≠ vo.vaultKey
  outputs : ∀ o ∈ t.outputs, ∀ made ∈ outputsMade b, made.oneTimeKey ≠ o.oneTimeKey ∧
    V.hashToPrime made.oneTimeKey made.primeNonce ≠ V.hashToPrime o.oneTimeKey o.primeNonce
  anchors : (∀ input ∈ t.zkInputs, AnchorBehind V L b.txs (hexstr input.anchor)) ∧
    ∀ s ∈ t.czkSpends, AnchorBehind V L b.txs (hexstr s.anchor)

/-! ## The items of a transaction -/

section Items

variable {V : Primitives} {skip : Transaction → Bool} {now : Int} {L L' : Ledger} {b : Block}
  {cb : Transaction} {txs : List Transaction} {t : Transaction} {ctx : Hash} {height later : Nat}

/-- An input passes behind a block that is apart. -/
theorem checkInput_persists (behind : StoresBehind V L b L') (apart : Apart V b t)
    (after : height ≤ later) (seen : List Bytes) {input : Input} (member : input ∈ t.inputs) :
    Persists (checkInput V L true height ctx seen input)
      (checkInput V L' true later ctx seen input) True := by
  refine Persists.of_passed fun result passed => ?_
  obtain ⟨lengths, unseen, entry, found, mature, unlocked, _, nullifier, canonical, unseenImage,
    untagged, rfl⟩ := checkInput_ok.mp passed
  have image := apart.images input member lengths.2.2
  rw [recordedTag_of_canonical canonical] at image
  have untagged' : L'.tags.has (hexstr nullifier) = false := by
    rw [← Bool.not_eq_true, behind.tags, not_or, untagged]
    exact ⟨Bool.false_ne_true, image⟩
  refine ⟨fun _ => checkInput_ok.mpr ⟨lengths, unseen, entry,
    behind.utxo found (apart.refs input member), ?_, by omega, fun impossible => by simp at impossible,
    nullifier, canonical, unseenImage, untagged', rfl⟩, fun _ _ => trivial⟩
  rintro ⟨minted, young⟩
  exact mature ⟨minted, by omega⟩

/-- So does an anonymous input. -/
theorem checkAnonInput_persists (behind : StoresBehind V L b L') (apart : Apart V b t)
    (after : height ≤ later) (seen : List Bytes) {input : AnonInput}
    (member : input ∈ t.anonInputs) :
    Persists (checkAnonInput V L true height ctx seen input)
      (checkAnonInput V L' true later ctx seen input) True := by
  refine Persists.of_passed fun result passed => ?_
  obtain ⟨lengths, nullifier, canonical, unseen, untagged, ring, members, size, _, rfl⟩ :=
    checkAnonInput_ok.mp passed
  have tag := apart.tags input member
  rw [recordedTag_of_canonical canonical] at tag
  have untagged' : L'.tags.has (hexstr nullifier) = false := by
    rw [← Bool.not_eq_true, behind.tags, not_or, untagged]
    exact ⟨Bool.false_ne_true, tag⟩
  exact ⟨fun _ => checkAnonInput_ok.mpr ⟨lengths, nullifier, canonical, unseen, untagged', ring,
    behind.ring members after, size, fun impossible => by simp at impossible, rfl⟩,
    fun _ _ => trivial⟩

section Contracts

variable (accepted : BlockAccepted V skip now L b cb txs) (applied : Applied V L b cb L')

include accepted applied

/-- A swap input passes while its window is open. -/
theorem checkSwapInput_persists (apart : Apart V b t) (state : List Bytes × UInt64)
    {input : SwapIn} (member : input ∈ t.swapInputs) :
    Persists (checkSwapInput V L true height ctx state input)
      (checkSwapInput V L' true later ctx state input)
      (∀ sw, L.swaps[hexstr input.swapKey]? = some sw → SwapWindow later input.isRefund sw) := by
  refine Persists.of_passed fun result passed => ?_
  obtain ⟨length, unseen, sw, found, sig, parsed, _, _, keys, sum⟩ := checkSwapInput_ok.mp passed
  have found' := swap_behind accepted applied found (apart.swaps input member)
  constructor
  · intro window
    exact checkSwapInput_ok.mpr ⟨length, unseen, sw, found', sig, parsed, window sw found,
      fun impossible => by simp at impossible, keys, sum⟩
  · intro other again entry listed
    obtain ⟨_, _, sw', same, _, _, window, _⟩ := checkSwapInput_ok.mp again
    obtain rfl := Option.some.inj (found.symm.trans listed)
    obtain rfl := Option.some.inj (found'.symm.trans same)
    exact window

/-- A vault claim passes while its yield is covered. -/
theorem checkVaultInput_persists (apart : Apart V b t) (after : height ≤ later)
    (state : List Bytes × UInt64) {input : VaultIn} (member : input ∈ t.vaultInputs) :
    Persists (checkVaultInput V L true height ctx state input)
      (checkVaultInput V L' true later ctx state input)
      (∀ v, L.vaults[hexstr input.vaultKey]? = some v →
        ∃ cap, vaultYieldAt v later = some cap ∧ input.yield ≤ cap) := by
  refine Persists.of_passed fun result passed => ?_
  obtain ⟨length, unseen, v, found, mature, sig, parsed, _, _, keys, sum⟩ :=
    checkVaultInput_ok.mp passed
  have found' := vault_behind accepted applied found (apart.vaults input member)
  constructor
  · intro entitled
    exact checkVaultInput_ok.mpr ⟨length, unseen, v, found', mature.trans after, sig, parsed,
      fun impossible => by simp at impossible, entitled v found, keys, sum⟩
  · intro other again entry listed
    obtain ⟨_, _, v', same, _, _, _, _, entitled, _⟩ := checkVaultInput_ok.mp again
    obtain rfl := Option.some.inj (found.symm.trans listed)
    obtain rfl := Option.some.inj (found'.symm.trans same)
    exact entitled

theorem checkSwapOutput_persists (state : List Bytes × UInt64) (so : SwapOut) :
    Persists (checkSwapOutput V L true height state so) (checkSwapOutput V L' true later state so)
      ((∀ made ∈ b.txs.flatMap Transaction.swapOutputs,
          made.swapKey ≠ so.swapKey ∧ made.claimR ≠ so.claimR) ∧
        later + Config.swapReorgMargin ≤ so.unlockHeight.toNat) := by
  refine Persists.of_passed fun result passed => ?_
  obtain ⟨lengths, keysOk, ⟨unseen, unregistered⟩, nonceUnseen, unused, amount, _, keys, sum⟩ :=
    checkSwapOutput_ok.mp passed
  have registered := noSwap_behind accepted applied unregistered
  have nonce := nonce_behind applied unused
  constructor
  · rintro ⟨apart, window⟩
    exact checkSwapOutput_ok.mpr ⟨lengths, keysOk,
      ⟨unseen, registered.mpr fun made member => (apart made member).1⟩, nonceUnseen,
      nonce.mpr fun made member => (apart made member).2, amount, window, keys, sum⟩
  · intro other again
    obtain ⟨_, _, ⟨_, unregistered'⟩, _, unused', _, window, _⟩ := checkSwapOutput_ok.mp again
    exact ⟨fun made member =>
      ⟨registered.mp unregistered' made member, nonce.mp unused' made member⟩, window⟩

theorem checkVaultOutput_persists (state : List Bytes × UInt64) (vo : VaultOut) :
    Persists (checkVaultOutput V L state vo) (checkVaultOutput V L' state vo)
      (∀ made ∈ b.txs.flatMap Transaction.vaultOutputs, made.vaultKey ≠ vo.vaultKey) := by
  refine Persists.of_passed fun result passed => ?_
  obtain ⟨lengths, rate, amount, ⟨unseen, unregistered⟩, owner, keys, sum⟩ :=
    checkVaultOutput_ok.mp passed
  have registered := noVault_behind accepted applied unregistered
  constructor
  · intro apart
    exact checkVaultOutput_ok.mpr ⟨lengths, rate, amount, ⟨unseen, registered.mpr apart⟩, owner,
      keys, sum⟩
  · intro other again
    obtain ⟨_, _, _, ⟨_, unregistered'⟩, _⟩ := checkVaultOutput_ok.mp again
    exact registered.mp unregistered'

end Contracts

theorem mem_primesOf {txs : List Transaction} {prime : Bytes} :
    prime ∈ primesOf V txs ↔ ∃ o ∈ txs.flatMap Transaction.outputs,
      V.hashToPrime o.oneTimeKey o.primeNonce = some prime := by
  rw [primesOf, List.mem_filterMap]
  constructor
  · rintro ⟨⟨flag, o⟩, member, found⟩
    exact ⟨o, mem_outputsOf.mp ⟨flag, member⟩, found⟩
  · rintro ⟨o, member, found⟩
    obtain ⟨flag, listed⟩ := mem_outputsOf.mpr member
    exact ⟨(flag, o), listed, found⟩

/-- An output passes unless the block makes its key or its prime. -/
theorem checkOutput_persists (behind : StoresBehind V L b L') (seen : List Bytes) (o : Output) :
    Persists (checkOutput V L true seen o) (checkOutput V L' true seen o)
      (∀ made ∈ outputsMade b, made.oneTimeKey ≠ o.oneTimeKey ∧
        V.hashToPrime made.oneTimeKey made.primeNonce ≠
          V.hashToPrime o.oneTimeKey o.primeNonce) := by
  refine Persists.of_passed fun result passed => ?_
  obtain ⟨lengths, point, range, pb, prime, unseen, keyUnseen, unknown, unused, rfl⟩ :=
    checkOutput_ok.mp passed
  have key := behind.newKeys o.oneTimeKey
  have made : L'.outPrimes.has (hexstr pb) = false ↔ ∀ made ∈ outputsMade b,
      V.hashToPrime made.oneTimeKey made.primeNonce ≠
        V.hashToPrime o.oneTimeKey o.primeNonce := by
    rw [← Bool.not_eq_true, behind.primes, unused, mem_primesOf, prime]
    simp only [Bool.false_eq_true, false_or, not_exists, not_and, ne_eq]
    rfl
  constructor
  · intro apart
    exact checkOutput_ok.mpr ⟨lengths, point, range, pb, prime, unseen, keyUnseen,
      key.mpr ⟨unknown, fun other member => (apart other member).1⟩,
      made.mpr fun other member => (apart other member).2, rfl⟩
  · intro other again
    obtain ⟨_, _, _, pb', prime', _, _, unknown', unused', _⟩ := checkOutput_ok.mp again
    obtain rfl := Option.some.inj (prime.symm.trans prime')
    exact fun other member => ⟨(key.mp unknown').2 other member, made.mp unused' other member⟩

/-- So do the outputs. -/
theorem checkOutputs_persists (behind : StoresBehind V L b L') (seen : List Bytes)
    (outs : List Output) :
    Persists (checkOutputs V L true seen outs) (checkOutputs V L' true seen outs)
      (∀ o ∈ outs, ∀ made ∈ outputsMade b, made.oneTimeKey ≠ o.oneTimeKey ∧
        V.hashToPrime made.oneTimeKey made.primeNonce ≠
          V.hashToPrime o.oneTimeKey o.primeNonce) := by
  refine Persists.foldlM ?_ _
  rintro ⟨primes, seen⟩ o _
  exact ((checkOutput_persists behind seen o).bind fun _ => Persists.refl _).congr
    (and_true _).symm.to_iff

/-- A nullifier spend passes while its anchor stays. -/
theorem checkZKInput_persists (windowed : Windowed L) (applied : Applied V L b cb L')
    (apart : Apart V b t)
    (state : List Bytes × UInt64) {input : ZKInput} (member : input ∈ t.zkInputs) :
    Persists (checkZKInput V L true ctx state input) (checkZKInput V L' true ctx state input)
      (AnchorBehind V L b.txs (hexstr input.anchor)) := by
  refine Persists.of_passed fun result passed => ?_
  obtain ⟨nfParsed, anchorParsed, amount, unseen, unspent, _, proof, keys, sum⟩ :=
    checkZKInput_ok.mp passed
  have unspent' := note_behind applied unspent (apart.notes input member)
  rw [← windowed.behind, ← applied.cmRoots]
  constructor
  · intro anchored
    exact checkZKInput_ok.mpr ⟨nfParsed, anchorParsed, amount, unseen, unspent', anchored, proof,
      keys, sum⟩
  · intro other again
    exact (checkZKInput_ok.mp again).2.2.2.2.2.1

/-- So does a confidential spend. -/
theorem checkCZKSpend_persists (windowed : Windowed L) (applied : Applied V L b cb L')
    (apart : Apart V b t)
    (state : List Bytes × UInt64) {s : CZKSpend} (member : s ∈ t.czkSpends) :
    Persists (checkCZKSpend V L true ctx state s) (checkCZKSpend V L' true ctx state s)
      (AnchorBehind V L b.txs (hexstr s.anchor)) := by
  refine Persists.of_passed fun result passed => ?_
  obtain ⟨nfParsed, anchorParsed, leafParsed, fee, unseen, unspent, _, proof, keys, sum⟩ :=
    checkCZKSpend_ok.mp passed
  have unspent' := note_behind applied unspent (apart.confidential s member)
  rw [← windowed.behind, ← applied.cmRoots]
  constructor
  · intro anchored
    exact checkCZKSpend_ok.mpr ⟨nfParsed, anchorParsed, leafParsed, fee, unseen, unspent', anchored,
      proof, keys, sum⟩
  · intro other again
    exact (checkCZKSpend_ok.mp again).2.2.2.2.2.2.1

/-! ## The transaction -/

/-- **The rules behind a block.** A classical transaction that is apart from the block
passes the rules again exactly when it survives. -/
theorem validateLegs_persists (windowed : Windowed L) (behind : StoresBehind V L b L')
    (accepted : BlockAccepted V skip now L b cb txs) (applied : Applied V L b cb L')
    (apart : Apart V b t) (seen : Seen) :
    Persists (validateLegs V L true t b.header.height seen)
      (validateLegs V L' true t (b.header.height + 1) seen) (Survives V L b t) := by
  have after : b.header.height ≤ b.header.height + 1 := Nat.le_succ _
  have inputs := fun seen input member => @checkInput_persists V L L' b t (t.coreHash V) _ _
    behind apart after seen input member
  have anons := fun seen input member => @checkAnonInput_persists V L L' b t (t.coreHash V) _ _
    behind apart after seen input member
  have swaps := fun state input member => @checkSwapInput_persists V skip now L L' b cb txs t
    (t.coreHash V) b.header.height (b.header.height + 1) accepted applied apart state input member
  have vaults := fun state input member => @checkVaultInput_persists V skip now L L' b cb txs t
    (t.coreHash V) _ _ accepted applied apart after state input member
  have swapOuts := fun state so (_ : so ∈ t.swapOutputs) =>
    @checkSwapOutput_persists V skip now L L' b cb txs b.header.height (b.header.height + 1)
      accepted applied state so
  have vaultOuts := fun state vo (_ : vo ∈ t.vaultOutputs) =>
    @checkVaultOutput_persists V skip now L L' b cb txs accepted applied state vo
  have zkIns := fun state input member => @checkZKInput_persists V L L' b cb t (t.coreHash V)
    windowed applied apart state input member
  have czks := fun state s member => @checkCZKSpend_persists V L L' b cb t (t.coreHash V)
    windowed applied apart state s member
  unfold validateLegs validateZKInputsLocked validateCZKSpendsLocked
  dsimp only
  refine ((Persists.foldlM inputs _).bind fun spent => (Persists.foldlM anons _).bind fun spent =>
    (Persists.foldlM swaps _).bind fun state => (Persists.foldlM vaults _).bind fun state =>
    (Persists.foldlM swapOuts _).bind fun state => (Persists.foldlM vaultOuts _).bind fun state =>
    (checkOutputs_persists behind _ _).bind fun primes =>
    ((Persists.refl _).bind fun _ => Persists.foldlM zkIns _).bind fun state =>
    (Persists.refl _).bind fun publicIn => (Persists.refl _).bind fun zkOut =>
    (Persists.refl _).bind fun publicOut =>
    ((Persists.refl _).bind fun _ => Persists.foldlM czks _).bind fun state =>
    Persists.refl _).congr ?_
  constructor
  · rintro ⟨swapIns, vaultIns, swapOuts, vaultOuts, outputs, zkAnchors, czkAnchors⟩
    exact ⟨fun _ _ => trivial, fun _ _ => trivial, swapIns, vaultIns, swapOuts, vaultOuts, outputs,
      ⟨trivial, zkAnchors⟩, trivial, trivial, trivial, ⟨trivial, czkAnchors⟩, trivial⟩
  · rintro ⟨_, _, swapIns, vaultIns, swapOuts, vaultOuts, outputs, ⟨_, zkAnchors⟩, _, _, _,
      ⟨_, czkAnchors⟩, _⟩
    exact ⟨swapIns, vaultIns, swapOuts, vaultOuts, outputs, zkAnchors, czkAnchors⟩

/-- The records that the transaction refers to. -/
theorem sameRecords_behind (behind : StoresBehind V L b L')
    (accepted : BlockAccepted V skip now L b cb txs) (applied : Applied V L b cb L')
    (apart : Apart V b t) {skipped : Bool} {seen next : Seen} {primes : List Bytes}
    (legs : LegsAccepted V L skipped t height seen primes next) (after : height ≤ later) :
    SameRecords L height L' later t ∧
      (∀ input ∈ t.swapInputs, ∃ sw, L'.swaps[hexstr input.swapKey]? = some sw) ∧
      ∀ input ∈ t.vaultInputs, ∃ v, L'.vaults[hexstr input.vaultKey]? = some v := by
  have swaps : ∀ input ∈ t.swapInputs, ∃ sw, L.swaps[hexstr input.swapKey]? = some sw ∧
      L'.swaps[hexstr input.swapKey]? = some sw := by
    intro input member
    obtain ⟨sw, found, _⟩ := legs.swapInputs input member
    exact ⟨sw, found, swap_behind accepted applied found (apart.swaps input member)⟩
  have vaults : ∀ input ∈ t.vaultInputs, ∃ v, L.vaults[hexstr input.vaultKey]? = some v ∧
      L'.vaults[hexstr input.vaultKey]? = some v := by
    intro input member
    obtain ⟨v, found⟩ := legs.vaultInputs input member
    exact ⟨v, found, vault_behind accepted applied found (apart.vaults input member)⟩
  refine ⟨⟨?_, ?_, ?_, ?_⟩, ?_, ?_⟩
  · intro input member entry found
    obtain ⟨_, past, old, _⟩ := legs.inputs input member
    have kept := behind.utxo old (apart.refs input member)
    obtain rfl := Option.some.inj (kept.symm.trans found)
    exact ⟨past, old, rfl⟩
  · intro input member ring found
    obtain ⟨past, old, _⟩ := legs.anonInputs input member
    obtain rfl := Option.some.inj ((behind.ring old after).symm.trans found)
    exact ⟨past, old, rfl, rfl⟩
  · intro input member sw found
    obtain ⟨past, old, kept⟩ := swaps input member
    obtain rfl := Option.some.inj (kept.symm.trans found)
    exact old
  · intro input member v found
    obtain ⟨past, old, kept⟩ := vaults input member
    obtain rfl := Option.some.inj (kept.symm.trans found)
    exact ⟨past, old, rfl, rfl⟩
  · exact fun input member => (swaps input member).imp fun _ found => found.2
  · exact fun input member => (vaults input member).imp fun _ found => found.2

theorem validateTx_behind (noPQ : L.pqUtxo = ∅) (windowed : Windowed L)
    (behind : StoresBehind V L b L')
    (accepted : BlockAccepted V skip now L b cb txs) (applied : Applied V L b cb L')
    (apart : Apart V b t) {skipped skipped' : Bool} (grows : skipped = true → skipped' = true)
    {result : List Bytes × Seen}
    (passed : validateTxLocked V L skipped t b.header.height ⟨[], []⟩ = .ok result) :
    (∃ other, validateTxLocked V L' skipped' t (b.header.height + 1) ⟨[], []⟩ = .ok other) ↔
      Survives V L b t := by
  have split : ∀ {L : Ledger} {skipped : Bool} {height : Nat} {result : List Bytes × Seen},
      validateTxLocked V L skipped t height ⟨[], []⟩ = .ok result ↔
        validateTxLocked V L true t height ⟨[], []⟩ = .ok result ∧
          (skipped = false → hasPQ t = false → TxProofs V L height t) := by
    intro L skipped height result
    cases skipped with
    | true => simp
    | false => simpa using validateTx_split V L height t ⟨[], []⟩ result
  obtain ⟨notCoinbase, classical, _, _, legs⟩ := validateTx_classical noPQ passed
  obtain ⟨rules, proofs⟩ := split.mp passed
  obtain ⟨same, swaps, vaults⟩ := sameRecords_behind behind accepted applied apart legs
    (Nat.le_succ b.header.height)
  have again : skipped' = false → hasPQ t = false → TxProofs V L' (b.header.height + 1) t := by
    intro unskipped _
    have verified : skipped = false := by
      cases skipped with
      | false => rfl
      | true => exact absurd (grows rfl) (by rw [unskipped]; exact Bool.false_ne_true)
    exact (proofs verified classical).transfer same swaps vaults
  have persists : Persists (validateTxLocked V L true t b.header.height ⟨[], []⟩)
      (validateTxLocked V L' true t (b.header.height + 1) ⟨[], []⟩) (Survives V L b t) := by
    unfold validateTxLocked
    rw [classical]
    refine ((Persists.refl _).bind fun _ => (Persists.refl (checkShape t)).bind fun _ =>
      validateLegs_persists windowed behind accepted applied apart ⟨[], []⟩).congr ?_
    simp only [true_and]
  rw [← persists.passes rules]
  exact exists_congr fun other => split.trans (and_iff_left again)

end Items

/-! ## What stays in the pool -/

namespace Mempool

variable {V : Primitives} {m : Mempool} {skip : Transaction → Bool} {now : Int} {L : Ledger}
  {b : Block} {cb : Transaction} {txs : List Transaction}

theorem remove_kept {txs : List Transaction} {id : Bytes} {e : Entry}
    (kept : (remove V m txs).txs[id]? = some e) :
    m.txs[id]? = some e ∧
      ∀ t ∈ txs, t.isCoinbase = false → ∀ key ∈ spendKeys V e.tx, key ∉ spendKeys V t := by
  unfold remove at kept
  dsimp only at kept
  rw [deleteAll_txs] at kept
  split_ifs at kept with conflicts
  have first := kept
  rw [deleteAll_txs] at kept
  split_ifs at kept
  refine ⟨kept, fun t member normal key held shared => conflicts ?_⟩
  refine List.mem_map.mpr ⟨(id, e), List.mem_filter.mpr
    ⟨Std.ExtTreeMap.mem_toList_iff_getElem?_eq_some.mpr first, ?_⟩, rfl⟩
  refine List.any_eq_true.mpr ⟨key, held, List.contains_iff_mem.mpr ?_⟩
  exact List.mem_flatMap.mpr ⟨t, List.mem_filter.mpr ⟨member, by simp [normal]⟩, shared⟩

/-- Different spend keys are different spends. -/
theorem apart_of_keys (accepted : BlockAccepted V skip now L b cb txs) {t : Transaction}
    (keys : ∀ s ∈ b.txs, s.isCoinbase = false → ∀ key ∈ spendKeys V t, key ∉ spendKeys V s) :
    Apart V b t := by
  -- The coinbase spends nothing.
  have other : ∀ s ∈ txs, ∀ key ∈ spendKeys V t, key ∉ spendKeys V s := by
    intro s member
    refine keys s ?_ (accepted.normal s member).1
    rw [accepted.split]
    exact List.mem_cons_of_mem _ member
  have legs := accepted.coinbase
  have tags : ∀ tag, ascii "tag:" ++ tag ∈ spendKeys V t → tag ∉ blockTagsFromTxs V b.txs := by
    intro tag held member
    rw [blockTagsFromTxs, accepted.flatMap_txs _ (by simp [txTags, accepted.isCoinbase]),
      List.mem_flatMap] at member
    obtain ⟨s, txMember, member⟩ := member
    refine other s txMember _ held ?_
    unfold txTags at member
    rw [(accepted.normal s txMember).1] at member
    simp only [Bool.false_eq_true, ↓reduceIte, List.mem_append, List.mem_map, List.mem_filter,
      decide_eq_true_eq] at member
    rcases member with ⟨input, ⟨listed, width⟩, rfl⟩ | ⟨input, listed, rfl⟩
    · exact image_mem_spendKeys listed width
    · exact anonKey_mem_spendKeys listed
  have notes : ∀ nullifier, ascii "zknull:" ++ nullifier ∈ spendKeys V t →
      hexstr nullifier ∉ noteNullifiers b.txs := by
    intro nullifier held member
    rw [noteNullifiers, accepted.flatMap_txs _ (by simp [legs.zkInputs, legs.czkSpends]),
      List.mem_flatMap] at member
    obtain ⟨s, txMember, member⟩ := member
    refine other s txMember _ held ?_
    simp only [List.mem_append, List.mem_map, hexstr_inj] at member
    rcases member with ⟨input, listed, rfl⟩ | ⟨spend, listed, rfl⟩
    · exact zkKey_mem_spendKeys listed
    · exact czkKey_mem_spendKeys listed
  constructor
  case refs =>
    intro input held member
    rw [spentRefs, accepted.flatMap_txs _ (by simp [legs.inputs]), List.mem_flatMap] at member
    obtain ⟨s, txMember, member⟩ := member
    obtain ⟨spent, listed, same⟩ := List.mem_map.mp member
    rw [hexstr_inj] at same
    refine other s txMember input.outputRef (ref_mem_spendKeys held) ?_
    rw [← same]
    exact ref_mem_spendKeys listed
  case images => exact fun input held width => tags _ (image_mem_spendKeys held width)
  case tags => exact fun input held => tags _ (anonKey_mem_spendKeys held)
  case swaps =>
    intro input held member
    rw [closedSwaps, accepted.flatMap_txs _ (by simp [legs.swapInputs]), List.mem_flatMap] at member
    obtain ⟨s, txMember, member⟩ := member
    obtain ⟨spent, listed, same⟩ := List.mem_map.mp member
    rw [hexstr_inj] at same
    refine other s txMember _ (swapKey_mem_spendKeys held) ?_
    rw [← same]
    exact swapKey_mem_spendKeys listed
  case vaults =>
    intro input held member
    rw [closedVaults, accepted.vaultInputs_eq, List.mem_map] at member
    obtain ⟨spent, member, same⟩ := member
    obtain ⟨s, txMember, listed⟩ := List.mem_flatMap.mp member
    rw [hexstr_inj] at same
    refine other s txMember _ (vaultKey_mem_spendKeys held) ?_
    rw [← same]
    exact vaultKey_mem_spendKeys listed
  case notes => exact fun input held => notes _ (zkKey_mem_spendKeys held)
  case confidential => exact fun s held => notes _ (czkKey_mem_spendKeys held)

/-- **Pending transactions after a block.** When every pooled transaction passed before the
block, those that `Remove` leaves pass behind it if and only if each of them survives. -/
theorem pool_revalidates_iff {chain : List Block} {cache : ProofCache} {parallel : Bool}
    (run : CacheRun V chain cache)
    (pooled : ∀ (id : Bytes) (e : Entry), m.txs[id]? = some e →
      (validateStandaloneTx V (replay V chain) cache e.tx).1 = .ok ())
    (connected : (validateBlockCached V (replay V chain) parallel now cache b).1 = .ok ()) :
    (∀ (id : Bytes) (e : Entry), (remove V m b.txs).txs[id]? = some e →
      (validateStandaloneTx V (replay V (b :: chain))
        (validateBlockCached V (replay V chain) parallel now cache b).2 e.tx).1 = .ok ()) ↔
    ∀ (id : Bytes) (e : Entry), (remove V m b.txs).txs[id]? = some e →
      Survives V (replay V chain) b e.tx := by
  have chained := run.chained
  have verdict := connected
  rw [validateBlockCached_verdict] at verdict
  obtain ⟨cb, txs, L', accepted, height, applies, applied, regular⟩ :=
    chained.regular.step verdict
  have state : replay V (b :: chain) = L' := by rw [replay, applies]
  have behind := chained.stores.behind (chained.stores.step accepted applied)
  have tip : L'.tip? = some b.header := by
    rw [Ledger.tip?, applied.headers, List.getLast?_append]
    rfl
  refine forall_congr' fun id => forall_congr' fun e => forall_congr' fun kept => ?_
  obtain ⟨there, keys⟩ := remove_kept kept
  obtain ⟨oldTip, result, oldTipFound, passed⟩ :=
    (validateStandaloneTx_ok V _).mp (pooled id e there)
  rw [chained.regular.tip oldTipFound, ← height] at passed
  have keeps := @CacheKeeps.block V (replay V chain) cache parallel now b
  have iff := validateTx_behind chained.regular.noPQOutput chained.covered.windowed behind accepted
    applied (apart_of_keys accepted keys) (keeps (e.tx.hash V)) passed
  rw [← iff, validateStandaloneTx_ok, state, tip]
  simp

/-! ## Two blocks without transactions -/

section Forge

open Testnet Forge

theorem lookup_single {added : Int} {t : Transaction} {id : Bytes} {e : Entry}
    (found : (single V added t).txs[id]? = some e) : e.tx = t := by
  rw [single, OrdMap.lookup_insert] at found
  split_ifs at found
  · rw [← Option.some.inj found]
  · simp at found

theorem remove_coinbase {cb : Transaction} (isCoinbase : cb.isCoinbase = true) :
    remove V m [cb] = m := by
  have none : [cb].filter (fun t => !t.isCoinbase) = [] := by simp [isCoinbase]
  unfold remove
  dsimp only
  rw [none]
  have kept : ((deleteAll V m (([] : List Transaction).map (hashHex V))).txs.toList.filter
      fun entry => (spendKeys V entry.2.tx).any fun k =>
        (([] : List Transaction).flatMap (spendKeys V)).contains k) = [] := by
    rw [List.filter_eq_nil_iff]
    intro entry _
    simp
  rw [kept]
  rfl

/-- An empty block over a chain. -/
def tick (chain : List Block) : Block := forge 3 [] 0 chain

theorem remove_tick {chain : List Block} (state : Net chain) :
    remove net m (tick chain).txs = m := by
  rw [tick, @forge_txs chain state 3 [] 0]
  exact remove_coinbase rfl

theorem tick_connects {chain : List Block} (state : Net chain) (small : chain.length < 2000) :
    ∃ now, ∀ cache, (validateBlockCached net (replay net chain) false now cache
      (tick chain)).1 = .ok () := by
  obtain ⟨now, verified⟩ := @forge_verified chain state 3 [] 0 small (Carried.none chain)
  exact ⟨now, fun cache => validateBlockCached_of_verified verified false cache⟩

/-- A claim in the last block of its window is pooled; an empty block comes instead, the
claim stays in the pool, and no block can hold it any more. -/
theorem late_claim_stays :
    Reachable net claimPool ∧ CacheRun net base ∅ ∧
    (∀ (id : Bytes) (e : Entry), claimPool.txs[id]? = some e →
      (validateStandaloneTx net (replay net base) ∅ e.tx).1 = .ok ()) ∧
    ∃ now, (validateBlockCached net (replay net base) false now ∅ (tick base)).1 = .ok () ∧
      ∃ (id : Bytes) (e : Entry), (remove net claimPool (tick base).txs).txs[id]? = some e ∧
        (validateStandaloneTx net (replay net (tick base :: base))
          (validateBlockCached net (replay net base) false now ∅ (tick base)).2 e.tx).1 ≠
            .ok () := by
  have short : base.length < 2000 := by rw [length_base]; omega
  obtain ⟨now, connects⟩ := tick_connects net_base short
  refine ⟨claimPool_reachable, net_base.chained.cacheRun, ?_, now, connects ∅, ?_⟩
  · intro id e found
    rw [lookup_single found]
    exact claim_standalone
  · rw [remove_tick net_base]
    refine ⟨_, _, Std.ExtTreeMap.getElem?_insert_self, fun passed => ?_⟩
    have quiet : Quiet base (tick base :: base) := (Quiet.refl net_base).extend short
    have regular := (quiet.state.chained.mono fun L b => Verified.admitted).regular
    obtain ⟨tip, ⟨primes, next⟩, found, valid⟩ := (validateStandaloneTx_ok net _).mp passed
    rw [regular.tip found, quiet.state.length, List.length_cons, length_base] at valid
    obtain ⟨_, _, _, _, legs⟩ := validateTx_classical regular.noPQOutput valid
    obtain ⟨sw, live, window⟩ := legs.swapInputs _ List.mem_cons_self
    change (replay net (tick base :: base)).swaps[hexstr zeroHash]? = some sw at live
    rw [quiet.swaps, contract_live.1] at live
    obtain rfl := Option.some.inj live
    have last : 63 ≤ (574 : UInt64).toNat - 512 := window.2
    exact absurd last (by decide)

theorem fund_passes :
    (validateStandaloneTx net (replay net matured) ∅ fund).1 = .ok () := by
  obtain ⟨coin, untagged⟩ := first_coin
  obtain ⟨swaps, nonces⟩ := no_swaps
  have closed : (replay net matured).swaps[hexstr zeroHash]? = none := by
    rw [swaps]
    simp
  have unused : inSet (replay net matured).swapNonces (hexstr zeroHash) = false := by
    rw [nonces, inSet]
    simp
  have height : 61 ≤ matured.length + 1 ∧ matured.length + 1 ≤ 62 := by
    rw [length_matured]
    omega
  obtain ⟨seen, valid⟩ := @fund_valid _ _ [] coin untagged closed unused height.1 height.2
  exact Net.standalone quiet_matured.state valid

/-- Behind an empty block the funding passes again. -/
theorem waiting_fund_passes :
    ∃ now, ∀ (id : Bytes) (e : Entry),
      (remove net (single net 0 fund) (tick matured).txs).txs[id]? = some e →
      (validateStandaloneTx net (replay net (tick matured :: matured))
        (validateBlockCached net (replay net matured) false now ∅ (tick matured)).2 e.tx).1 =
          .ok () := by
  have short : matured.length < 2000 := by rw [length_matured]; omega
  obtain ⟨now, connects⟩ := tick_connects quiet_matured.state short
  refine ⟨now, (pool_revalidates_iff quiet_matured.state.chained.cacheRun ?_ (connects ∅)).mpr ?_⟩
  · intro id e found
    rw [lookup_single found]
    exact fund_passes
  · intro id e found
    rw [remove_tick quiet_matured.state] at found
    rw [lookup_single found]
    have txs := @forge_txs matured quiet_matured.state 3 [] 0
    have height := @forge_height matured quiet_matured.state 3 [] 0
    rw [length_matured] at height
    constructor
    case swapOutputs =>
      intro so member
      obtain rfl := List.mem_singleton.mp member
      constructor
      · intro made listed
        rw [tick, txs] at listed
        exact absurd listed List.not_mem_nil
      · rw [tick, height]
        decide
    case outputs => exact fun o member => absurd member List.not_mem_nil
    case anchors => exact ⟨fun _ member => absurd member List.not_mem_nil,
      fun _ member => absurd member List.not_mem_nil⟩
    all_goals exact fun _ member => absurd member List.not_mem_nil

end Forge

end Mempool

end Obscura
