import Obscura.Replay
import Obscura.StoreSpec

/-! # The disk stores of a chain

What the blocks of a chain put into the disk stores, as lists (`chainLists`). The
stores of the state after a chain hold exactly these lists, and the lists of a
chain extend those of every chain below it.
-/

namespace Obscura

open Wire Tx Checked

/-- The contents of the four disk stores, in order of insertion. -/
@[ext] structure StoreLists where
  spent : List Bytes := []
  tags : List Bytes := []
  outPrimes : List Bytes := []
  coins : List CoinInfo := []

/-- The lists of an older part of the chain, then those of a newer one. -/
def StoreLists.append (first second : StoreLists) : StoreLists where
  spent := first.spent ++ second.spent
  tags := first.tags ++ second.tags
  outPrimes := first.outPrimes ++ second.outPrimes
  coins := first.coins ++ second.coins

/-- The stores of a state hold the given lists. -/
structure Ledger.Stores (V : Primitives) (L : Ledger) (lists : StoreLists) : Prop where
  spent : L.spent.Lists V lists.spent
  tags : L.tags.Lists V lists.tags
  outPrimes : L.outPrimes.Lists V lists.outPrimes
  coins : L.coins.Lists lists.coins
  coinCount : L.coins.coinCount = lists.coins.length

/-- The coins of a list of outputs, numbered from `start`. -/
def coinsOf (height : Nat) : (start : Nat) → List (Bool × Output) → List CoinInfo
  | _, [] => []
  | start, entry :: rest =>
    ⟨entry.2.oneTimeKey, entry.2.commitment, height, entry.1, entry.2.lockUntil, start⟩ ::
      coinsOf height (start + 1) rest

/-- What a block adds to the stores. -/
def blockLists (V : Primitives) (coinCount : Nat) (b : Block) : StoreLists where
  spent := spentRefs b.txs
  tags := (blockTagsFromTxs V b.txs).map hexstr
  outPrimes := (primesOf V b.txs).map hexstr
  coins := coinsOf b.header.height coinCount (outputsOf b.txs)

/-- What the stores list for a chain, newest block first. -/
def chainLists (V : Primitives) : List Block → StoreLists
  | [] => {}
  | b :: older =>
    (chainLists V older).append (blockLists V (chainLists V older).coins.length b)

theorem coinsOf_key (height start : Nat) (outs : List (Bool × Output)) :
    (coinsOf height start outs).map CoinInfo.key = outs.map fun entry => entry.2.oneTimeKey := by
  induction outs generalizing start with
  | nil => rfl
  | cons entry outs ih => rw [coinsOf, List.map_cons, ih, List.map_cons]

/-- New outputs are listed behind the old ones. -/
theorem foldl_addOutputCoin (height : Nat) {outs : List (Bool × Output)} {s : CoinStore}
    {coins : List CoinInfo} (lists : s.Lists coins) (count : s.coinCount = coins.length)
    (new : ∀ entry ∈ outs, entry.2.oneTimeKey ∉ coins.map CoinInfo.key)
    (distinct : (outs.map fun entry => entry.2.oneTimeKey).Nodup) :
    (outs.foldl (addOutputCoin height) s).Lists (coins ++ coinsOf height coins.length outs) ∧
      (outs.foldl (addOutputCoin height) s).coinCount =
        (coins ++ coinsOf height coins.length outs).length := by
  induction outs generalizing s coins with
  | nil => simpa [coinsOf] using ⟨lists, count⟩
  | cons entry outs ih =>
    rw [List.map_cons, List.nodup_cons] at distinct
    have added := lists.addCoin count (lists.unknown (new entry (by simp))) entry.2.commitment height entry.1
      entry.2.lockUntil
    have addedCount : (addOutputCoin height s entry).coinCount =
        (coins ++ [(⟨entry.2.oneTimeKey, entry.2.commitment, height, entry.1,
          entry.2.lockUntil, coins.length⟩ : CoinInfo)]).length := by
      rw [List.length_append, ← count]
      rfl
    have later : ∀ other ∈ outs, other.2.oneTimeKey ∉ (coins ++ [(⟨entry.2.oneTimeKey,
        entry.2.commitment, height, entry.1, entry.2.lockUntil, coins.length⟩ :
          CoinInfo)]).map CoinInfo.key := by
      intro other member listed
      rw [List.map_append, List.mem_append] at listed
      rcases listed with old | fresh
      · exact new other (List.mem_cons_of_mem _ member) old
      · have same : other.2.oneTimeKey = entry.2.oneTimeKey := List.mem_singleton.mp fresh
        refine distinct.1 ?_
        rw [← same]
        exact List.mem_map_of_mem (f := fun entry : Bool × Output => entry.2.oneTimeKey) member
    have next := ih added addedCount later distinct.2
    rwa [List.append_assoc, List.length_append] at next

section Step

variable {V : Primitives} {skip : Transaction → Bool} {now : Int} {L L' : Ledger} {b : Block}
  {cb : Transaction} {txs : List Transaction}

namespace BlockAccepted

variable (accepted : BlockAccepted V skip now L b cb txs)

include accepted

theorem spentRefs_nodup : (spentRefs b.txs).Nodup := by
  rw [spentRefs, accepted.flatMap_txs _ (by simp [accepted.coinbase.inputs])]
  simpa only [List.map_eq_flatMap] using accepted.refs

theorem spentRefs_new : ∀ ref ∈ spentRefs b.txs, L.spent.has ref = false := by
  intro ref member
  rw [spentRefs, accepted.flatMap_txs _ (by simp [accepted.coinbase.inputs]),
    List.mem_flatMap] at member
  obtain ⟨t, txMember, member⟩ := member
  obtain ⟨input, inputMember, rfl⟩ := List.mem_map.mp member
  obtain ⟨_, _, _, legs⟩ := accepted.legs t txMember
  obtain ⟨_, entry, found, _⟩ := legs.inputs input inputMember
  unfold Ledger.utxoEntry at found
  cases spent : L.spent.has (hexstr input.outputRef) with
  | false => rfl
  | true => simp [spent] at found

/-- The tags of a block are new. -/
theorem blockTags_new : ∀ tag ∈ (blockTagsFromTxs V b.txs).map hexstr, L.tags.has tag = false := by
  intro tag member
  obtain ⟨bytes, listed, rfl⟩ := List.mem_map.mp member
  clear member
  rw [blockTagsFromTxs, accepted.flatMap_txs _ (by simp [txTags, accepted.isCoinbase]),
    List.mem_flatMap] at listed
  obtain ⟨t, txMember, member⟩ := listed
  have plain := accepted.plain t (by rw [accepted.split]; exact List.mem_cons_of_mem _ txMember)
  obtain ⟨_, _, _, legs⟩ := accepted.legs t txMember
  rw [txTags_of_plain plain, List.mem_append, List.mem_map, List.mem_map] at member
  rcases member with ⟨input, inputMember, rfl⟩ | ⟨input, inputMember, rfl⟩
  · obtain ⟨_, _, _, _, _, _, nullifier, canonical, untagged⟩ := legs.inputs input inputMember
    rw [recordedTag_of_canonical canonical]
    exact untagged
  · obtain ⟨_, _, _, nullifier, canonical, untagged⟩ := legs.anonInputs input inputMember
    rw [recordedTag_of_canonical canonical]
    exact untagged

theorem primes_nodup : ((primesOf V b.txs).map hexstr).Nodup := by
  refine accepted.outputKeys.sublist ?_
  unfold primesOf outputsOf
  rw [List.filterMap_flatMap, List.map_flatMap]
  refine List.Sublist.flatMap_right _ fun t _ => ?_
  rw [List.filterMap_map, List.filterMap_eq_flatMap_toList, List.map_flatMap]
  refine List.Sublist.flatMap_right _ fun o _ => ?_
  cases prime : V.hashToPrime o.oneTimeKey o.primeNonce <;> simp [Obscura.outputKeys, prime]

/-- The primes of a block are new. -/
theorem primes_new : ∀ prime ∈ (primesOf V b.txs).map hexstr, L.outPrimes.has prime = false := by
  intro prime member
  obtain ⟨pb, listed, rfl⟩ := List.mem_map.mp member
  obtain ⟨entry, entryMember, found⟩ := List.mem_filterMap.mp listed
  simp only [outputsOf, List.mem_flatMap, List.mem_map] at entryMember
  obtain ⟨t, txMember, o, outMember, rfl⟩ := entryMember
  obtain ⟨_, pb', prime', unused⟩ := accepted.outputs_new txMember outMember
  have same : pb' = pb := Option.some.inj (prime'.symm.trans found)
  rw [← same]
  exact unused

theorem outputs_prime : ∀ entry ∈ outputsOf b.txs,
    ∃ pb, V.hashToPrime entry.2.oneTimeKey entry.2.primeNonce = some pb := by
  intro entry member
  simp only [outputsOf, List.mem_flatMap, List.mem_map] at member
  obtain ⟨t, txMember, o, outMember, rfl⟩ := member
  obtain ⟨_, pb, prime, _⟩ := accepted.outputs_new txMember outMember
  exact ⟨pb, prime⟩

/-- No key is used twice in a block. -/
theorem coinKeys_nodup : ((outputsOf b.txs).map fun entry => entry.2.oneTimeKey).Nodup := by
  refine List.Nodup.of_map (fun key => ascii "key:" ++ hexstr key) ?_
  refine accepted.outputKeys.sublist ?_
  have primes := accepted.outputs_prime
  unfold outputsOf at primes ⊢
  rw [List.map_flatMap, List.map_flatMap]
  refine List.Sublist.flatMap_right _ fun t txMember => ?_
  rw [List.map_map, List.map_map, List.map_eq_flatMap]
  refine List.Sublist.flatMap_right _ fun o outMember => ?_
  obtain ⟨pb, prime⟩ := primes (t.isCoinbase, o)
    (List.mem_flatMap.mpr ⟨t, txMember, List.mem_map_of_mem outMember⟩)
  simp only at prime
  simp [Obscura.outputKeys, prime]

theorem coinKeys_new {coins : List CoinInfo} (lists : L.coins.Lists coins) :
    ∀ entry ∈ outputsOf b.txs, entry.2.oneTimeKey ∉ coins.map CoinInfo.key := by
  intro entry member
  simp only [outputsOf, List.mem_flatMap, List.mem_map] at member
  obtain ⟨t, txMember, o, outMember, rfl⟩ := member
  exact lists.absent (accepted.outputs_new txMember outMember).1

end BlockAccepted

/-- **A block** adds to the stores what it lists. -/
theorem Ledger.Stores.step {lists : StoreLists} (stores : L.Stores V lists)
    (accepted : BlockAccepted V skip now L b cb txs) (applied : Applied V L b cb L') :
    L'.Stores V (lists.append (blockLists V lists.coins.length b)) := by
  have new : ∀ {set : DiskSet} {keys : List Bytes} {more : List Bytes}, set.Lists V keys →
      (∀ key ∈ more, set.has key = false) → ∀ key ∈ more, key ∉ keys := by
    intro set keys more holds unknown key member listed
    have absent := unknown key member
    rw [holds.has.mpr listed] at absent
    exact Bool.noConfusion absent
  have coins := foldl_addOutputCoin b.header.height stores.coins stores.coinCount
    (accepted.coinKeys_new stores.coins) accepted.coinKeys_nodup
  constructor
  case spent =>
    rw [applied.spent]
    exact stores.spent.addAll (new stores.spent accepted.spentRefs_new) accepted.spentRefs_nodup
  case tags =>
    rw [applied.tags, ← List.foldl_map (f := hexstr) (g := DiskSet.add V)]
    exact stores.tags.addAll (new stores.tags accepted.blockTags_new) accepted.blockTags_nodup
  case outPrimes =>
    rw [applied.outPrimes, ← List.foldl_map (f := hexstr) (g := DiskSet.add V)]
    exact stores.outPrimes.addAll (new stores.outPrimes accepted.primes_new) accepted.primes_nodup
  case coins => rw [applied.coins]; exact coins.1
  case coinCount => rw [applied.coins]; exact coins.2

end Step

section Chain

variable {V : Primitives}

theorem Stores.genesis : (genesisLedger V).Stores V {} := by
  obtain ⟨_, applied⟩ := genesis_applied (V := V)
  constructor
  case spent => rw [applied.spent]; exact DiskSet.Lists.empty
  case tags => rw [applied.tags]; exact DiskSet.Lists.empty
  case outPrimes => rw [applied.outPrimes]; exact DiskSet.Lists.empty
  case coins => rw [applied.coins]; exact CoinStore.Lists.empty
  case coinCount => rw [applied.coins]; rfl

theorem Chained.stores {chain : List Block} (chained : Chained V (Admitted V) chain) :
    (replay V chain).Stores V (chainLists V chain) := by
  induction chain with
  | nil => exact Stores.genesis
  | cons b older ih =>
    obtain ⟨below, ⟨skip, now, accepted⟩, _⟩ := chained
    obtain ⟨cb, txs, L', block, _, run, applied, _⟩ := below.regular.step accepted
    rw [replay, run]
    exact (ih below).step block applied

end Chain

end Obscura
