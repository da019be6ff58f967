import Obscura.NoteIndependence

/-! # Conservation of value

Along every chain of verified blocks nothing is consumed twice, the pool is never
asked for more than it holds, and the worth of the state is what the chain was
rewarded with, less the contributions the overflow guard of the pool left out.
-/

namespace Obscura

open Wire Tx Checked

section Chain

variable {V : Primitives} (I : Ideal V)

/-- The invariant of a chain's books, with the values that the hashed notes give to leaves. -/
structure Audit (hashed : Set (Node × Node)) (chain : List Block) : Prop where
  coins : CoinsSound I (replay V chain) (chainLists V chain).coins
  coinsKnown : ∀ key ∈ coinsSpent I chain, ∃ coin ∈ (chainLists V chain).coins, coin.key = key
  coinsTagged : ∀ key ∈ coinsSpent I chain,
    (replay V chain).tags.has (hexstr (I.nullifierOf key)) = true
  coinsOnce : (coinsSpent I chain).Nodup
  swaps : Registry.Sound swapIdentity
    (fun nonce => inSet (replay V chain).swapNonces (hexstr nonce) = true)
    (replay V chain).swaps (swapsClosed V chain)
  vaults : Registry.Sound vaultIdentity
    (fun id => id.2.toNat < (replay V chain).headers.length)
    (replay V chain).vaults (vaultsClosed V chain)
  anchored : Anchored V (replay V chain) (notesMinted chain)
  notesKnown : ∀ leaf ∈ notesSpent I chain, leaf ∈ notesMinted chain
  notesMarked : ∀ leaf ∈ notesSpent I chain,
    inSet (replay V chain).zkNull (hexstr (noteNullifier V hashed leaf)) = true
  notesOnce : (notesSpent I chain).Nodup
  balance : OrdMap.total (coinValue I) (replay V chain).coins.coins +
      OrdMap.total (fun sw => sw.amount.toNat) (replay V chain).swaps +
      OrdMap.total (fun v => v.amount.toNat) (replay V chain).vaults +
      (replay V chain).incentivePool.toNat + ((notesMinted chain).map (noteValue V hashed)).sum +
      droppedContributions V chain =
    rewards V chain + ((coinsSpent I chain).map (keyValue I (replay V chain))).sum +
      ((notesSpent I chain).map (noteValue V hashed)).sum

/-- The books of the genesis balance. -/
theorem Audit.genesis (hashed : Set (Node × Node)) : Audit I hashed [] := by
  obtain ⟨_, applied⟩ := genesis_applied (V := V)
  have stores := Stores.genesis (V := V)
  have noCoins : (genesisLedger V).coins.coins = ∅ := by
    rw [applied.coins]
    rfl
  have noSwaps : (genesisLedger V).swaps = ∅ := by
    rw [applied.swaps]
    rfl
  have noVaults : (genesisLedger V).vaults = ∅ := by
    rw [applied.vaults]
    rfl
  have noPool : (genesisLedger V).incentivePool = 0 := by
    obtain ⟨paid, sum, pool⟩ := applied.pool
    have none : paid = 0 := UInt64.toNat_inj.mp (by
      change paid.toNat = 0
      change paid.toNat + _ = 0 at sum
      omega)
    rw [pool, none]
    rfl
  constructor
  case coins => exact ⟨stores.coins, by simp [chainLists]⟩
  case coinsKnown => simp [coinsSpent]
  case coinsTagged => simp [coinsSpent]
  case coinsOnce => exact List.nodup_nil
  case swaps =>
    rw [replay, noSwaps]
    exact Registry.Sound.empty
  case vaults =>
    rw [replay, noVaults]
    exact Registry.Sound.empty
  case anchored => exact Anchored.genesis
  case notesKnown => simp [notesSpent]
  case notesMarked => simp [notesSpent]
  case notesOnce => exact List.nodup_nil
  case balance =>
    rw [replay, noCoins, noSwaps, noVaults, noPool]
    simp [notesMinted, droppedContributions, rewards, coinsSpent, notesSpent]

variable {I}

/-- The value of a coin never changes. -/
theorem keyValue_kept {older : List Block} {L' : Ledger} {lists : StoreLists}
    (before : (replay V older).Stores V (chainLists V older))
    (after : L'.Stores V ((chainLists V older).append lists)) {key : Bytes}
    (known : ∃ coin ∈ (chainLists V older).coins, coin.key = key) :
    keyValue I L' key = keyValue I (replay V older) key := by
  obtain ⟨coin, member, rfl⟩ := known
  have found : (replay V older).coins.coinByKey coin.key = some coin :=
    (before.coins.byKey coin.key coin).mpr ⟨member, rfl⟩
  have still : L'.coins.coinByKey coin.key = some coin :=
    (after.coins.byKey coin.key coin).mpr ⟨List.mem_append_left _ member, rfl⟩
  rw [keyValue, keyValue, found, still]

/-- A block keeps the books balanced. -/
theorem Audit.step {hashed : Set (Node × Node)} (free : Collisionless V hashed)
    {older : List Block} {b : Block} {now : Int} (trees : epochPairs V (notesMinted older) ⊆ hashed)
    (known : ∀ t ∈ b.txs, ∀ pair ∈ txPairs I t, pair ∈ hashed) (audit : Audit I hashed older)
    (below : Chained V (Verified V) older)
    (accepted : validateBlockLocked V (fun _ => false) now (replay V older) b = .ok ()) :
    Audit I hashed (b :: older) := by
  have admitted := below.mono fun L b => Verified.admitted
  obtain ⟨cb, txs, L', block, height, run, applied, regular⟩ := admitted.regular.step accepted
  have stores := admitted.stores
  have stores' := stores.step block applied
  have state : replay V (b :: older) = L' := by
    rw [replay, run]
  have tagged : ∀ tag, tag ∈ (blockTagsFromTxs V b.txs).map hexstr ∨
      (replay V older).tags.has tag = true → L'.tags.has tag = true := by
    intro tag member
    refine stores'.tags.has.mpr (List.mem_append.mpr ?_)
    rcases member with new | old
    · exact Or.inr new
    · exact Or.inl (stores.tags.has.mp old)
  have coinTags := congrArg (List.map hexstr) (block.coinTags audit.coins)
  rw [List.map_map] at coinTags
  have coinsKnown : ∀ key ∈ coinsSpent I (b :: older),
      ∃ coin ∈ (chainLists V older).coins, coin.key = key := by
    intro key member
    rcases List.mem_append.mp member with new | old
    · exact block.coins_known audit.coins key new
    · exact audit.coinsKnown key old
  have noteMarks := block.noteMarks free trees known audit.anchored
  constructor
  case coins =>
    rw [state]
    refine ⟨stores'.coins, ?_⟩
    intro coin member
    rcases List.mem_append.mp member with old | new
    · exact audit.coins.nonnegative coin old
    · exact block.coins_nonnegative _ coin new
  case coinsKnown =>
    intro key member
    obtain ⟨coin, coinMember, same⟩ := coinsKnown key member
    exact ⟨coin, List.mem_append_left _ coinMember, same⟩
  case coinsTagged =>
    rw [state]
    intro key member
    refine tagged _ ?_
    rcases List.mem_append.mp member with new | old
    · rw [← coinTags]
      exact Or.inl (List.mem_map_of_mem (f := hexstr ∘ I.nullifierOf) new)
    · exact Or.inr (audit.coinsTagged key old)
  case coinsOnce =>
    refine List.nodup_append.mpr ⟨?_, audit.coinsOnce, ?_⟩
    · refine List.Nodup.of_map (hexstr ∘ I.nullifierOf) ?_
      rw [coinTags]
      exact block.blockTags_nodup
    · rintro key new _ old rfl
      have unseen := block.blockTags_new (hexstr (I.nullifierOf key)) (by
        rw [← coinTags]
        exact List.mem_map_of_mem (f := hexstr ∘ I.nullifierOf) new)
      exact Bool.noConfusion (unseen.symm.trans (audit.coinsTagged key old))
  case swaps =>
    rw [state]
    exact Applied.swapRegistry block applied audit.swaps
  case vaults =>
    rw [state]
    exact Applied.vaultRegistry block applied height audit.vaults
  case anchored =>
    rw [state]
    exact audit.anchored.step applied
  case notesKnown =>
    intro leaf member
    rcases List.mem_append.mp member with new | old
    · exact List.mem_append_left _ (block.notes_known free trees known audit.anchored leaf new)
    · exact List.mem_append_left _ (audit.notesKnown leaf old)
  case notesMarked =>
    rw [state, applied.zkNull]
    intro leaf member
    rcases List.mem_append.mp member with new | old
    · refine inSet_markAll_mem ?_
      rw [← noteMarks]
      exact List.mem_map_of_mem (f := fun leaf => hexstr (noteNullifier V hashed leaf)) new
    · exact inSet_markAll_old (audit.notesMarked leaf old)
  case notesOnce =>
    refine List.nodup_append.mpr ⟨?_, audit.notesOnce, ?_⟩
    · refine List.Nodup.of_map (fun leaf => hexstr (noteNullifier V hashed leaf)) ?_
      rw [noteMarks]
      exact block.noteNullifiers_nodup
    · rintro leaf new _ old rfl
      have unseen := block.marks_new (hexstr (noteNullifier V hashed leaf)) (by
        rw [← noteMarks]
        exact List.mem_map_of_mem (f := fun leaf => hexstr (noteNullifier V hashed leaf)) new)
      exact Bool.noConfusion (unseen.symm.trans (audit.notesMarked leaf old))
  case balance =>
    have notGenesis : b.header.height ≠ 0 := by
      have started := List.length_pos_iff.mpr admitted.regular.started
      omega
    have balance := block.balances audit.coins free trees known audit.anchored
    have coins := Applied.total_coins (I := I) block applied
    have swaps := Applied.total_swaps block applied
    have vaults := Applied.total_vaults block applied
    have pool := Applied.total_pool applied notGenesis
    have before := audit.balance
    have values : (coinsSpent I (b :: older)).map (keyValue I L') =
        (coinsSpent I (b :: older)).map (keyValue I (replay V older)) :=
      List.map_congr_left fun key member => keyValue_kept stores stores'
        (coinsKnown key member)
    rw [state, values]
    simp only [coinsSpent, notesSpent, notesMinted, rewards, droppedContributions,
      List.map_append, List.sum_append]
    omega

theorem hashedPairs_mono (b : Block) (older : List Block) :
    hashedPairs I older ⊆ hashedPairs I (b :: older) := by
  rintro pair (⟨block, member, inProofs⟩ | ⟨leaves, epoch, earlier, inTree⟩)
  · exact Or.inl ⟨block, List.mem_cons_of_mem _ member, inProofs⟩
  · exact Or.inr ⟨leaves, epoch, earlier.trans (List.prefix_append _ _), inTree⟩

theorem Audit.of_chained {hashed : Set (Node × Node)} (free : Collisionless V hashed)
    {chain : List Block} (within : hashedPairs I chain ⊆ hashed)
    (chained : Chained V (Verified V) chain) : Audit I hashed chain := by
  induction chain with
  | nil => exact Audit.genesis I hashed
  | cons b older ih =>
    obtain ⟨below, ⟨now, accepted⟩, _⟩ := chained
    have earlier := (hashedPairs_mono b older).trans within
    refine Audit.step free (Set.subset_union_right.trans earlier) ?_ (ih earlier below) below
      accepted
    exact fun t inBlock pair member => within (Or.inl ⟨b, List.mem_cons_self, t, inBlock, member⟩)

/-! ## Worth -/

theorem total_unspentCoins {hashed : Set (Node × Node)} {chain : List Block}
    (audit : Audit I hashed chain) :
    OrdMap.total (coinValue I) (unspentCoins I chain) +
        ((coinsSpent I chain).map (keyValue I (replay V chain))).sum =
      OrdMap.total (coinValue I) (replay V chain).coins.coins := by
  have distinct : ((coinsSpent I chain).map hexstr).Nodup :=
    (List.nodup_map_iff hexstr_injective).mpr audit.coinsOnce
  have present : ∀ key ∈ (coinsSpent I chain).map hexstr,
      (replay V chain).coins.coins[key]? ≠ none := by
    intro key member
    obtain ⟨ref, spent, rfl⟩ := List.mem_map.mp member
    obtain ⟨coin, coinMember, rfl⟩ := audit.coinsKnown ref spent
    rw [(audit.coins.lists.byKey coin.key coin).mpr ⟨coinMember, rfl⟩]
    exact Option.some_ne_none coin
  have removed := OrdMap.total_eraseAll (coinValue I) (replay V chain).coins.coins distinct present
  rw [List.map_map] at removed
  exact removed

theorem sum_unspentNotes {hashed : Set (Node × Node)} {chain : List Block}
    (audit : Audit I hashed chain) :
    ∑ leaf ∈ unspentNotes I chain, noteValue V hashed leaf +
        ((notesSpent I chain).map (noteValue V hashed)).sum =
      ∑ leaf ∈ (notesMinted chain).toFinset, noteValue V hashed leaf := by
  have within : (notesSpent I chain).toFinset ⊆ (notesMinted chain).toFinset := by
    intro leaf member
    rw [List.mem_toFinset] at member ⊢
    exact audit.notesKnown leaf member
  rw [← List.sum_toFinset _ audit.notesOnce, unspentNotes]
  exact Finset.sum_sdiff within

theorem sum_toFinset_le {α : Type} [DecidableEq α] (weight : α → Nat) (values : List α) :
    ∑ value ∈ values.toFinset, weight value ≤ (values.map weight).sum := by
  induction values with
  | nil => simp
  | cons value values ih =>
    rw [List.toFinset_cons, List.map_cons, List.sum_cons]
    by_cases repeated : value ∈ values.toFinset
    · rw [Finset.insert_eq_of_mem repeated]
      omega
    · rw [Finset.sum_insert repeated]
      omega

/-- **The books close.** Nothing is worth more than the rewards, and with distinct
leaves nothing is lost but what the guard of the pool left out. -/
theorem Audit.closes {chain : List Block} (audit : Audit I (hashedPairs I chain) chain) :
    worth I chain + droppedContributions V chain ≤ rewards V chain ∧
      ((notesMinted chain).Nodup →
        worth I chain + droppedContributions V chain = rewards V chain) := by
  have coins := total_unspentCoins audit
  have notes := sum_unspentNotes audit
  have bound := sum_toFinset_le (noteValue V (hashedPairs I chain)) (notesMinted chain)
  have balance := audit.balance
  unfold worth
  constructor
  · omega
  · intro distinct
    rw [List.sum_toFinset (noteValue V (hashedPairs I chain)) distinct] at notes
    omega

/-! ## Claims on the pool -/

/-- No claim of a block reaches the clamp of `applyVaultInput`: when the loop comes
to it, the pool covers its yield. -/
def ClaimsPaid (V : Primitives) (L : Ledger) (b : Block) : Prop :=
  ∀ before t after first input rest, b.txs = before ++ t :: after →
    t.vaultInputs = first ++ input :: rest →
    input.yield ≤ (first.foldl applyVaultInput
      (before.foldl (applyVaults b.header.height) (vaultLoopStart V L b))).incentivePool

theorem VaultLegs.reach (height : Nat) {L : Ledger} {before : List Transaction}
    {after : List Transaction} (legs : VaultLegs L (before ++ after)) :
    VaultLegs (before.foldl (applyVaults height) L) after := by
  induction before generalizing L with
  | nil => exact legs
  | cons t before ih =>
    obtain ⟨pool, sum, claimed⟩ := foldl_applyVaultInput L legs.here
    have next := legs.rest height sum
    have state : applyVaults height L t =
        { L with incentivePool := pool, vaults := vaultsAfter height L.vaults t } := by
      rw [applyVaults_eq height L (legs.coinbase t (by simp)), claimed, foldl_applyVaultOutput]
      rfl
    rw [List.foldl_cons]
    exact ih (state ▸ next)

theorem ClaimsCovered.reach {L : Ledger} {first rest : List VaultIn} {input : VaultIn}
    (covered : ClaimsCovered L (first ++ input :: rest)) :
    input.yield ≤ (first.foldl applyVaultInput L).incentivePool := by
  obtain ⟨distinct, live, enough⟩ := covered
  rw [List.map_append, List.nodup_append] at distinct
  rw [List.map_append, List.sum_append, List.map_cons, List.sum_cons] at enough
  have earlier : ClaimsCovered L first :=
    ⟨distinct.1, fun claim member => live claim (List.mem_append_left _ member), by omega⟩
  obtain ⟨pool, sum, run⟩ := foldl_applyVaultInput L earlier
  rw [run, UInt64.le_iff_toNat_le]
  change input.yield.toNat ≤ pool.toNat
  omega

theorem claimsPaid_of_applicable {L : Ledger} {b : Block} {cb : Transaction}
    (applicable : Applicable V L b cb) : ClaimsPaid V L b := by
  intro before t after first input rest txs claims
  have legs := vaultLoopStart_legs applicable
  rw [txs] at legs
  have here := (legs.reach b.header.height).here
  rw [claims] at here
  exact here.reach

/-- Every input of a block is attributed to an item of the state before it. -/
structure Attributed (I : Ideal V) (L : Ledger) (b : Block) : Prop where
  coins : ∀ t ∈ b.txs, (txCoins I L b.header.height t).length =
    t.inputs.length + t.anonInputs.length
  coinsExist : ∀ t ∈ b.txs, ∀ key ∈ txCoins I L b.header.height t, L.coins.coinByKey key ≠ none
  swaps : (Registry.identities swapIdentity L.swaps (closedSwaps b.txs)).length =
    (closedSwaps b.txs).length
  vaults : (Registry.identities vaultIdentity L.vaults (closedVaults b.txs)).length =
    (closedVaults b.txs).length

theorem identities_length {β ι : Type} {ident : Bytes → β → ι} {live : GoMap β}
    {keys : List Bytes} (present : ∀ key ∈ keys, live[key]? ≠ none) :
    (Registry.identities ident live keys).length = keys.length := by
  induction keys with
  | nil => rfl
  | cons key keys ih =>
    obtain ⟨entry, found⟩ := Option.ne_none_iff_exists'.mp (present key (by simp))
    have rest := ih fun other member => present other (List.mem_cons_of_mem _ member)
    unfold Registry.identities at rest ⊢
    rw [List.filterMap_cons, found, Option.map_some, List.length_cons, List.length_cons, rest]

theorem BlockAccepted.swaps_live {skip : Transaction → Bool} {now : Int} {L : Ledger} {b : Block}
    {cb : Transaction} {txs : List Transaction} (accepted : BlockAccepted V skip now L b cb txs) :
    ∀ key ∈ closedSwaps b.txs, L.swaps[key]? ≠ none := by
  intro key member
  rw [closedSwaps, accepted.flatMap_txs _ (by simp [accepted.coinbase.swapInputs]),
    List.mem_flatMap] at member
  obtain ⟨t, txMember, member⟩ := member
  obtain ⟨input, inputMember, rfl⟩ := List.mem_map.mp member
  obtain ⟨_, _, _, legs⟩ := accepted.legs t txMember
  obtain ⟨sw, found, _⟩ := legs.swapInputs input inputMember
  rw [found]
  exact Option.some_ne_none sw

/-- Every item that a block spends is attributed to one on the books. -/
theorem attributed {now : Int} {L : Ledger} {b : Block} {cb : Transaction}
    {txs : List Transaction} {coins : List CoinInfo} (sound : CoinsSound I L coins)
    (accepted : BlockAccepted V (fun _ => false) now L b cb txs) : Attributed I L b := by
  have legs := accepted.coinbase
  have noCoins : txCoins I L b.header.height cb = [] := by
    simp [txCoins, legs.inputs, legs.anonInputs]
  constructor
  case coins =>
    intro t member
    rw [accepted.split, List.mem_cons] at member
    rcases member with rfl | member
    · simp [noCoins, legs.inputs, legs.anonInputs]
    · obtain ⟨_, _, _, txLegs⟩ := accepted.legs t member
      have lengths := congrArg List.length (txCoins_spec sound txLegs).2.1
      simpa using lengths
  case coinsExist =>
    intro t member key spent
    rw [accepted.split, List.mem_cons] at member
    rcases member with rfl | member
    · simp [noCoins] at spent
    · obtain ⟨_, _, _, txLegs⟩ := accepted.legs t member
      obtain ⟨coin, coinMember, rfl⟩ := (txCoins_spec sound txLegs).1 key spent
      have found : L.coins.coinByKey coin.key = some coin :=
        (sound.lists.byKey coin.key coin).mpr ⟨coinMember, rfl⟩
      rw [found]
      exact Option.some_ne_none coin
  case swaps => exact identities_length accepted.swaps_live
  case vaults =>
    refine identities_length fun key member => ?_
    obtain ⟨input, inputMember, rfl⟩ := List.mem_map.mp member
    exact accepted.vaultLegs.claims.live input inputMember

/-- **Conservation and single spend.** Along every chain of verified blocks in which no two
of the hashed pairs of nodes collide: the worth of the state and the contributions that the
overflow guard of the pool left out never exceed the rewards, and equal them when no leaf was
appended twice; no coin, swap contract, vault or note is consumed twice, whichever way it is
spent; every input consumes an item that exists; and no claim reaches the clamp of the pool. -/
theorem conservation_and_single_spend (I : Ideal V) {chain : List Block}
    (chained : Chained V (Verified V) chain) (free : Collisionless V (hashedPairs I chain)) :
    (worth I chain + droppedContributions V chain ≤ rewards V chain ∧
      ((notesMinted chain).Nodup →
        worth I chain + droppedContributions V chain = rewards V chain)) ∧
    ((coinsSpent I chain).Nodup ∧ (swapsClosed V chain).Nodup ∧ (vaultsClosed V chain).Nodup ∧
      (notesSpent I chain).Nodup ∧ (∀ leaf ∈ notesSpent I chain, leaf ∈ notesMinted chain)) ∧
    ∀ newer b older, chain = newer ++ b :: older →
      Attributed I (replay V older) b ∧ ClaimsPaid V (replay V older) b := by
  have audit := Audit.of_chained free Set.Subset.rfl chained
  refine ⟨audit.closes, ⟨audit.coinsOnce, audit.swaps.closedOnce, audit.vaults.closedOnce,
    audit.notesOnce, audit.notesKnown⟩, ?_⟩
  rintro newer b older rfl
  have within : hashedPairs I older ⊆ hashedPairs I (newer ++ b :: older) := by
    refine (hashedPairs_mono b older).trans ?_
    clear audit free chained
    induction newer with
    | nil => exact Set.Subset.rfl
    | cons last newer ih => exact ih.trans (hashedPairs_mono last _)
  obtain ⟨below, ⟨now, accepted⟩, _⟩ := chained.below
  have regular := (below.mono fun L b => Verified.admitted).regular
  obtain ⟨cb, txs, _, block, _⟩ := regular.step accepted
  exact ⟨attributed (Audit.of_chained free within below).coins block,
    claimsPaid_of_applicable (block.applicable regular.valueOnly)⟩

end Chain

open Twins in
/-- A coin pays for two notes, and one of the notes is spent. -/
theorem conservation_of_spent_note :
    coinsSpent ideal ([spendBlock] ++ base) = [Testnet.payoutKey 1] ∧
      notesSpent ideal ([spendBlock] ++ base) = [Wallet.Alias.plain 2] ∧
      worth ideal ([spendBlock] ++ base) + droppedContributions net ([spendBlock] ++ base) =
        rewards net ([spendBlock] ++ base) := by
  obtain ⟨⟨-, closes⟩, -⟩ := conservation_and_single_spend ideal spend_chained (collisionless _)
  refine ⟨by decide, ?_, closes ?_⟩
  · set_option maxRecDepth 30000 in
    decide
  · rw [notesMinted_append, minted_base]
    decide

/-! ## The books of an idle network -/

section Overflow

open Testnet

variable {hash : Bytes → Hash}

theorem notesMinted_mined (nonces : List Nat) : notesMinted (mined hash nonces) = [] := by
  induction nonces with
  | nil => rfl
  | cons nonce nonces ih =>
    rw [mined, notesMinted, ih]
    rfl

theorem pool_mined (width : ∀ bytes, (hash bytes).length = 32) {nonces : List Nat}
    (small : nonces.length < 2 ^ 64) :
    30_000_000_000 * nonces.length ≤
      (replay (primitives hash) (mined hash nonces)).incentivePool.toNat +
        droppedContributions (primitives hash) (mined hash nonces) := by
  induction nonces with
  | nil => simp
  | cons nonce nonces ih =>
    rw [List.length_cons] at small ⊢
    have idle := idle_mined width (nonce :: nonces) small
    have below := idle_mined width nonces (by omega)
    obtain ⟨height, cb, applied⟩ := idle.chained.last fun L b => Verified.admitted
    rw [below.length] at height
    have moved := applied.total_pool (by omega)
    have yields : yieldsOf (mine hash nonce (mined hash nonces)) = 0 := rfl
    have bounds := blockReward_bounds (replay (primitives hash) (mined hash nonces)).emitted
    have part : contribution (replay (primitives hash) (mined hash nonces)) =
        (Config.blockReward (replay (primitives hash) (mined hash nonces)).emitted).toNat *
          500 / 10_000 :=
      Ledger.poolContribution_eq _ []
    have before := ih (by omega)
    change 30_000_000_000 * (nonces.length + 1) ≤
      (replay (primitives hash) (mine hash nonce (mined hash nonces) ::
        mined hash nonces)).incentivePool.toNat +
      (droppedContributions (primitives hash) (mined hash nonces) + _)
    rw [yields] at moved ⊢
    omega

/-- The worth of a chain is not always its rewards: once the pool is about to
reach `2 ^ 64`, the overflow guard leaves contributions out. -/
theorem worth_ne_rewards :
    ¬ ∀ (V : Primitives) (I : Ideal V) (chain : List Block), Chained V (Verified V) chain →
      Collisionless V (hashedPairs I chain) → (notesMinted chain).Nodup →
        worth I chain = rewards V chain := by
  intro claim
  have length : (List.replicate (2 ^ 30) 0).length = 2 ^ 30 := List.length_replicate
  generalize List.replicate (2 ^ 30) 0 = nonces at length
  have small : nonces.length < 2 ^ 64 := by omega
  have idle := idle_mined checksum_length nonces small
  have distinct : (notesMinted (mined checksum nonces)).Nodup := by
    rw [notesMinted_mined]
    exact List.nodup_nil
  have free := collisionless checksum (hashedPairs (ideal checksum) (mined checksum nonces))
  have equal := claim _ (ideal checksum) _ idle.chained free distinct
  have closes := (Audit.of_chained free Set.Subset.rfl idle.chained).closes.2 distinct
  have pool := pool_mined checksum_length small
  have word := (replay (primitives checksum) (mined checksum nonces)).incentivePool.toNat_lt
  omega

end Overflow

end Obscura
