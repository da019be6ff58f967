import Obscura.Ideal
import Obscura.ReplayStores
import Obscura.Lib.Registry
import Mathlib.Algebra.BigOperators.Ring.Finset

/-! # The books of a chain

What the blocks of a chain consume, create and are rewarded with under ideal
cryptography, and the worth of the state after it. A verified transaction and an
accepted block balance (`tx_balances`, `BlockAccepted.balances`), and applying a
block moves each total of the state by what the block says.
-/

namespace Obscura

open Wire Tx Checked

/-! ## Definitions -/

section Books

variable {V : Primitives} (I : Ideal V)

/-- The ring member that the proof of an anonymous input is about. -/
def anonSpent (L : Ledger) (height : Nat) (ctx : Hash) (input : AnonInput) : Option CoinInfo :=
  (L.poolMembers input.poolID.toNat height).bind fun ring =>
    ring[I.ringIndex (ring.map CoinInfo.key) (ring.map CoinInfo.commitment)
      input.pseudoCommitment input.tag input.proof ctx]?

/-- The keys of the coins a transaction consumes. -/
def txCoins (L : Ledger) (height : Nat) (t : Transaction) : List Bytes :=
  t.inputs.map Input.outputRef ++ t.anonInputs.filterMap fun input =>
    (anonSpent I L height (t.coreHash V) input).map CoinInfo.key

/-- What the proof of a ZK input was made with. -/
def zkSpending (ctx : Hash) (input : ZKInput) : Option Spending :=
  match V.unmarshalProof input.proof with
  | .ok proof => some (I.spending input.amount input.anchor input.nullifier ctx proof)
  | .error _ => none

/-- The leaf that a ZK input consumes. -/
def zkSpent (ctx : Hash) (input : ZKInput) : Node :=
  (zkSpending I ctx input).elim zeroHash fun spending => spending.leaf V

/-- What the proof of a confidential spend was made with. -/
def czkSpending (ctx : Hash) (s : CZKSpend) : Option Spending :=
  match V.unmarshalProof s.proof with
  | .ok proof => some (I.hiddenSpending s.nullifier s.anchor s.leafOut s.fee ctx proof)
  | .error _ => none

/-- The leaf that a confidential spend consumes. -/
def czkSpent (ctx : Hash) (s : CZKSpend) : Node :=
  (czkSpending I ctx s).elim zeroHash fun spending => spending.leaf V

/-- The note in the proof of a mint. -/
def zkMinted (ctx : Hash) (o : ZKOutput) : Option Opening :=
  match V.unmarshalProof o.mintProof with
  | .ok proof => some (I.mintNote o.amount o.leaf ctx proof)
  | .error _ => none

/-- The new note in the proof of a confidential spend. -/
def czkSent (ctx : Hash) (s : CZKSpend) : Option Opening :=
  match V.unmarshalProof s.proof with
  | .ok proof => some (I.sentNote s.nullifier s.anchor s.leafOut s.fee ctx proof)
  | .error _ => none

/-- The pairs of nodes that are hashed for the proofs of a transaction. -/
def txPairs (t : Transaction) : List (Node × Node) :=
  let ctx := t.coreHash V
  (t.zkInputs.filterMap (zkSpending I ctx) ++
      t.czkSpends.filterMap (czkSpending I ctx)).flatMap (Spending.pairs V) ++
    (t.zkOutputs.filterMap (zkMinted I ctx) ++
      t.czkSpends.filterMap (czkSent I ctx)).flatMap (Opening.pairs V)

/-- The notes a transaction consumes. -/
def txNotes (t : Transaction) : List Node :=
  t.zkInputs.map (zkSpent I (t.coreHash V)) ++ t.czkSpends.map (czkSpent I (t.coreHash V))

/-- The coins consumed along a chain, by key. -/
def coinsSpent : List Block → List Bytes
  | [] => []
  | b :: older => b.txs.flatMap (txCoins I (replay V older) b.header.height) ++ coinsSpent older

/-- The notes that a chain spends, one for each spend. -/
def notesSpent : List Block → List Node
  | [] => []
  | b :: older => b.txs.flatMap (txNotes I) ++ notesSpent older

variable (V)

/-- A swap contract is known by its nonce, which no other contract ever carries. -/
def swapIdentity (_ : Bytes) (sw : SwapEntry) : Bytes := sw.claimR

/-- A vault is known by its key and the height of its deposit. -/
def vaultIdentity (key : Bytes) (v : VaultEntry) : Bytes × UInt64 := (key, v.depositHeight)

/-- The swap contracts claimed or refunded along a chain. -/
def swapsClosed : List Block → List Bytes
  | [] => []
  | b :: older =>
    Registry.identities swapIdentity (replay V older).swaps (closedSwaps b.txs) ++
      swapsClosed older

/-- The vaults withdrawn along a chain. -/
def vaultsClosed : List Block → List (Bytes × UInt64)
  | [] => []
  | b :: older =>
    Registry.identities vaultIdentity (replay V older).vaults (closedVaults b.txs) ++
      vaultsClosed older

/-- The leaves appended to the commitment tree along a chain. -/
def notesMinted : List Block → List Node
  | [] => []
  | b :: older => notesMinted older ++ cmLeavesFromTxs b.txs

/-- The pairs of nodes that are hashed for the roots of the trees while leaves are appended. -/
def epochPairs (leaves : List Node) : Set (Node × Node) :=
  {pair | ∃ older epoch, older <+: leaves ∧ pair ∈ Frontier.treePairs V.wideHash2 Config.zkDepth
    (Frontier.padded zeroHash (epochLeaves Config.zkDepth older epoch))}

/-- The base rewards of a chain's blocks, as an unbounded sum. -/
def rewards : List Block → Nat
  | [] => 0
  | _ :: older => rewards older + (Config.blockReward (replay V older).emitted).toNat

/-- The yields that vault withdrawals of a block claim. -/
def yieldsOf (b : Block) : Nat :=
  ((b.txs.flatMap Transaction.vaultInputs).map fun input => input.yield.toNat).sum

/-- The pool contribution of the block after a chain. -/
def contribution (L : Ledger) : Nat :=
  (Config.blockReward L.emitted * Config.incentivePoolBps / 10_000).toNat

/-- The pool contributions that the overflow guard left out: those that would have
brought the pool to `2 ^ 64`. -/
def droppedContributions : List Block → Nat
  | [] => 0
  | b :: older =>
    let L := replay V older
    droppedContributions older +
      if (L.incentivePool.toNat - yieldsOf b) + contribution L < 2 ^ 64 then 0
      else contribution L

variable {V}

/-- The value of a coin. -/
def coinValue (coin : CoinInfo) : Nat := (I.value coin.commitment).toNat

/-- The coins whose keys were not consumed. -/
def unspentCoins (chain : List Block) : GoMap CoinInfo :=
  OrdMap.eraseAll (replay V chain).coins.coins ((coinsSpent I chain).map hexstr)

/-- The notes that were minted and not consumed; equal leaves are one note. -/
def unspentNotes (chain : List Block) : Finset Node :=
  (notesMinted chain).toFinset \ (notesSpent I chain).toFinset

/-- The pairs of nodes that are hashed along a chain: for the notes in its proofs and for the
roots of its trees. -/
def hashedPairs (chain : List Block) : Set (Node × Node) :=
  {pair | ∃ b ∈ chain, ∃ t ∈ b.txs, pair ∈ txPairs I t} ∪ epochPairs V (notesMinted chain)

/-- The worth of the state after a chain. -/
noncomputable def worth (chain : List Block) : Nat :=
  OrdMap.total (coinValue I) (unspentCoins I chain) +
    OrdMap.total (fun sw => sw.amount.toNat) (replay V chain).swaps +
    OrdMap.total (fun v => v.amount.toNat) (replay V chain).vaults +
    (replay V chain).incentivePool.toNat +
    ∑ leaf ∈ unspentNotes I chain, noteValue V (hashedPairs I chain) leaf

end Books

/-! ## One transaction -/

section Transaction

variable {V : Primitives} (I : Ideal V) {L : Ledger} {height : Nat} {t : Transaction}
  {seen next : Seen} {primes : List Bytes}

/-- The value of the coin with a key. -/
def keyValue (L : Ledger) (key : Bytes) : Nat :=
  (L.coins.coinByKey key).elim 0 (coinValue I)

/-- What holds of the coins before a block. -/
structure CoinsSound (L : Ledger) (coins : List CoinInfo) : Prop where
  lists : L.coins.Lists coins
  nonnegative : ∀ coin ∈ coins, 0 ≤ I.value coin.commitment

variable {I}

theorem CoinsSound.value {coins : List CoinInfo} (sound : CoinsSound I L coins) {coin : CoinInfo}
    (member : coin ∈ coins) : I.value coin.commitment = keyValue I L coin.key := by
  have found : L.coins.coinByKey coin.key = some coin :=
    (sound.lists.byKey coin.key coin).mpr ⟨member, rfl⟩
  rw [keyValue, found]
  exact (Int.toNat_of_nonneg (sound.nonnegative coin member)).symm

theorem mem_poolMembers {poolID : Nat} {ring : List CoinInfo}
    (members : L.poolMembers poolID height = some ring) {coin : CoinInfo} (member : coin ∈ ring) :
    ∃ index, L.coins.coinByIndex index = some coin := by
  unfold Ledger.poolMembers at members
  split at members
  · exact absurd members (by simp)
  · dsimp only at members
    split at members
    · exact absurd members (by simp)
    · obtain ⟨index, _, found⟩ := mem_mapM members member
      unfold Ledger.poolMember at found
      exact ⟨index, (Option.filter_eq_some_iff.mp found).1⟩

/-- An anonymous input consumes a coin of the pool, of the value of its pseudo
commitment, and records the coin's key image. -/
theorem anonSpent_spec {coins : List CoinInfo} (sound : CoinsSound I L coins) {input : AnonInput}
    {ring : List CoinInfo} (members : L.poolMembers input.poolID.toNat height = some ring)
    (proof : AnonProofs V (t.coreHash V) input ring) :
    ∃ coin ∈ coins, anonSpent I L height (t.coreHash V) input = some coin ∧
      I.value input.pseudoCommitment = keyValue I L coin.key ∧
      recordedTag V input.tag = I.nullifierOf coin.key := by
  obtain ⟨key, commitment, atKey, atCommitment, sameValue, canonical⟩ := I.anonSpend proof
  rw [List.getElem?_map] at atKey atCommitment
  obtain ⟨coin, found, rfl⟩ := Option.map_eq_some_iff.mp atKey
  rw [found] at atCommitment
  obtain rfl : coin.commitment = commitment := Option.some.inj atCommitment
  obtain ⟨index, stored⟩ := mem_poolMembers members (List.mem_of_getElem? found)
  have member : coin ∈ coins :=
    List.mem_of_getElem? ((sound.lists.byIndex index).symm.trans stored)
  refine ⟨coin, member, ?_, ?_, recordedTag_of_canonical canonical⟩
  · rw [anonSpent, members]
    exact found
  · rw [sameValue, sound.value member]

theorem inputSpent_spec {coins : List CoinInfo} (sound : CoinsSound I L coins) {input : Input}
    {entry : CoinInfo} (found : L.utxoEntry input.outputRef = some entry)
    (proofs : InputProofs V (t.coreHash V) input entry.commitment) :
    entry ∈ coins ∧ entry.key = input.outputRef ∧
      I.value input.pseudoCommitment = keyValue I L input.outputRef ∧
      recordedTag V input.keyImage = I.nullifierOf input.outputRef := by
  obtain ⟨_, equality, image⟩ := proofs
  unfold Ledger.utxoEntry at found
  split at found
  · exact absurd found (by simp)
  · obtain ⟨member, key⟩ := (sound.lists.byKey _ entry).mp found
    refine ⟨member, key, ?_, recordedTag_of_canonical (I.keyImage image)⟩
    rw [I.equality equality, sound.value member, key]

/-- The coins a verified transaction consumes. -/
theorem txCoins_spec {coins : List CoinInfo} (sound : CoinsSound I L coins)
    (legs : LegsAccepted V L false t height seen primes next) :
    (∀ key ∈ txCoins I L height t, ∃ coin ∈ coins, coin.key = key) ∧
      (txCoins I L height t).map I.nullifierOf =
        (t.inputs.map fun input => recordedTag V input.keyImage) ++
          t.anonInputs.map (fun input => recordedTag V input.tag) ∧
      ((pseudoIns t).map I.value).sum =
        (((txCoins I L height t).map (keyValue I L)).sum : Nat) := by
  have inputs : ∀ input ∈ t.inputs, (∃ coin ∈ coins, coin.key = input.outputRef) ∧
      I.value input.pseudoCommitment = keyValue I L input.outputRef ∧
      recordedTag V input.keyImage = I.nullifierOf input.outputRef := by
    intro input member
    obtain ⟨_, entry, found, _, _, proofs, _⟩ := legs.inputs input member
    obtain ⟨coinMember, key, value, tag⟩ := inputSpent_spec sound found (proofs rfl)
    exact ⟨⟨entry, coinMember, key⟩, value, tag⟩
  have anons : ∀ input ∈ t.anonInputs, ∃ coin ∈ coins,
      anonSpent I L height (t.coreHash V) input = some coin ∧
      I.value input.pseudoCommitment = keyValue I L coin.key ∧
      recordedTag V input.tag = I.nullifierOf coin.key := by
    intro input member
    obtain ⟨ring, members, proof, _⟩ := legs.anonInputs input member
    exact anonSpent_spec sound members (proof rfl)
  refine ⟨?_, ?_, ?_⟩
  · intro key member
    rcases List.mem_append.mp member with named | hidden
    · obtain ⟨input, inputMember, rfl⟩ := List.mem_map.mp named
      exact (inputs input inputMember).1
    · obtain ⟨input, inputMember, spent⟩ := List.mem_filterMap.mp hidden
      obtain ⟨coin, coinMember, found, _⟩ := anons input inputMember
      rw [found] at spent
      exact ⟨coin, coinMember, Option.some.inj spent⟩
  · rw [txCoins, List.map_append, List.map_map]
    congr 1
    · exact List.map_congr_left fun input member => (inputs input member).2.2.symm
    · refine map_filterMap fun input member => ?_
      obtain ⟨coin, _, found, _, tag⟩ := anons input member
      exact ⟨coin.key, by rw [found]; rfl, tag.symm⟩
  · have hidden : (t.anonInputs.filterMap fun input =>
        (anonSpent I L height (t.coreHash V) input).map CoinInfo.key).map
          (fun key => (keyValue I L key : Int)) =
        t.anonInputs.map fun input => I.value input.pseudoCommitment := by
      refine map_filterMap fun input member => ?_
      obtain ⟨coin, _, found, value, _⟩ := anons input member
      exact ⟨coin.key, by rw [found]; rfl, value.symm⟩
    have named : (t.inputs.map Input.outputRef).map (fun key => (keyValue I L key : Int)) =
        t.inputs.map fun input => I.value input.pseudoCommitment := by
      rw [List.map_map]
      exact List.map_congr_left fun input member => (inputs input member).2.1.symm
    have cast : ∀ keys : List Bytes, (((keys.map (keyValue I L)).sum : Nat) : Int) =
        (keys.map fun key => (keyValue I L key : Int)).sum := by
      intro keys
      rw [Nat.cast_list_sum, List.map_map]
      rfl
    rw [cast, txCoins, List.map_append, hidden, named, pseudoIns, List.map_append, List.map_map,
      List.map_map]
    rfl

/-- The leaves a transaction appends. -/
def txLeaves (t : Transaction) : List Node :=
  t.zkOutputs.filterMap (fun o => parseNode o.leaf) ++
    t.czkSpends.filterMap fun s => parseNode s.leafOut

section Proofs

variable {hashed : Set (Node × Node)} (known : ∀ pair ∈ txPairs I t, pair ∈ hashed)

include known

theorem spending_hashed {spending : Spending}
    (member : spending ∈ t.zkInputs.filterMap (zkSpending I (t.coreHash V)) ++
      t.czkSpends.filterMap (czkSpending I (t.coreHash V))) :
    ∀ pair ∈ spending.pairs V, pair ∈ hashed := fun pair inPairs =>
  known pair (List.mem_append_left _ (List.mem_flatMap.mpr ⟨spending, member, inPairs⟩))

theorem opening_hashed {note : Opening}
    (member : note ∈ t.zkOutputs.filterMap (zkMinted I (t.coreHash V)) ++
      t.czkSpends.filterMap (czkSent I (t.coreHash V))) :
    ∀ pair ∈ note.pairs V, pair ∈ hashed := fun pair inPairs =>
  known pair (List.mem_append_right _ (List.mem_flatMap.mpr ⟨note, member, inPairs⟩))

end Proofs

theorem spending_spec {hashed : Set (Node × Node)} {minted : List Node}
    (free : Collisionless V hashed) (trees : epochPairs V minted ⊆ hashed)
    (anchored : Anchored V L minted) {spending : Spending} {anchor nf : Node}
    (known : ∀ pair ∈ spending.pairs V, pair ∈ hashed)
    (anchorKnown : inSet L.cmRoots (hexstr anchor) = true) (proves : spending.Proves V anchor nf) :
    spending.leaf V ∈ minted ∧ noteNullifier V hashed (spending.leaf V) = nf ∧
      noteValue V hashed (spending.leaf V) = spending.amount.toNat := by
  obtain ⟨older, epoch, earlier, rfl⟩ := anchored.anchors anchor anchorKnown
  refine ⟨?_, ?_, free.noteValue_eq (Spending.note_hashed known)⟩
  · have tree : Frontier.treePairs V.wideHash2 Config.zkDepth
        (Frontier.padded zeroHash (epochLeaves Config.zkDepth older epoch)) ⊆ hashed :=
      fun pair member => trees ⟨older, epoch, earlier, member⟩
    have inEpoch := free.mem_of_proves known tree proves
    exact earlier.subset (List.mem_of_mem_drop (List.mem_of_mem_take inEpoch))
  · rw [free.noteNullifier_eq known, proves.nullifier]

/-- The notes a verified transaction consumes and creates. -/
theorem txNotes_spec {hashed : Set (Node × Node)} {minted : List Node}
    (free : Collisionless V hashed) (trees : epochPairs V minted ⊆ hashed)
    (known : ∀ pair ∈ txPairs I t, pair ∈ hashed) (anchored : Anchored V L minted)
    (legs : LegsAccepted V L false t height seen primes next) :
    (∀ leaf ∈ txNotes I t, leaf ∈ minted) ∧
      (txNotes I t).map (noteNullifier V hashed) =
        t.zkInputs.map ZKInput.nullifier ++ t.czkSpends.map CZKSpend.nullifier ∧
      ((txNotes I t).map (noteValue V hashed)).sum + (t.zkOutputs.map fun o => o.amount.toNat).sum =
        (t.zkInputs.map fun input => input.amount.toNat).sum +
          (t.czkSpends.map fun s => s.fee.toNat).sum +
          ((txLeaves t).map (noteValue V hashed)).sum := by
  have inputs : ∀ input ∈ t.zkInputs, zkSpent I (t.coreHash V) input ∈ minted ∧
      noteNullifier V hashed (zkSpent I (t.coreHash V) input) = input.nullifier ∧
      noteValue V hashed (zkSpent I (t.coreHash V) input) = input.amount.toNat := by
    intro input member
    obtain ⟨_, anchorKnown, proved⟩ := legs.zkInputs input member
    obtain ⟨proof, decoded, verified⟩ := proved rfl
    obtain ⟨proves, amount⟩ := I.spend verified
    have found : zkSpending I (t.coreHash V) input =
        some (I.spending input.amount input.anchor input.nullifier (t.coreHash V) proof) := by
      rw [zkSpending, decoded]
    have pairs := spending_hashed known (List.mem_append_left _
      (List.mem_filterMap.mpr ⟨input, member, found⟩))
    obtain ⟨listed, nullifier, value⟩ :=
      spending_spec free trees anchored pairs anchorKnown proves
    rw [amount] at value
    rw [zkSpent, found]
    exact ⟨listed, nullifier, value⟩
  have spends : ∀ s ∈ t.czkSpends, czkSpent I (t.coreHash V) s ∈ minted ∧
      noteNullifier V hashed (czkSpent I (t.coreHash V) s) = s.nullifier ∧
      noteValue V hashed (czkSpent I (t.coreHash V) s) =
        s.fee.toNat + noteValue V hashed s.leafOut := by
    intro s member
    obtain ⟨_, anchorKnown, _, proved⟩ := legs.czkSpends s member
    obtain ⟨proof, decoded, verified⟩ := proved rfl
    obtain ⟨proves, leafOut, balance⟩ := I.confidential verified
    have found : czkSpending I (t.coreHash V) s =
        some (I.hiddenSpending s.nullifier s.anchor s.leafOut s.fee (t.coreHash V) proof) := by
      rw [czkSpending, decoded]
    have sent : czkSent I (t.coreHash V) s =
        some (I.sentNote s.nullifier s.anchor s.leafOut s.fee (t.coreHash V) proof) := by
      rw [czkSent, decoded]
    have pairs := spending_hashed known (List.mem_append_right _
      (List.mem_filterMap.mpr ⟨s, member, found⟩))
    have sentPairs := opening_hashed known (List.mem_append_right _
      (List.mem_filterMap.mpr ⟨s, member, sent⟩))
    obtain ⟨listed, nullifier, value⟩ :=
      spending_spec free trees anchored pairs anchorKnown proves
    have sentValue := free.noteValue_eq sentPairs
    rw [leafOut] at sentValue
    rw [czkSpent, found, Option.elim_some]
    refine ⟨listed, nullifier, ?_⟩
    rw [value, sentValue, balance, Nat.add_comm]
  have mints : (t.zkOutputs.filterMap fun o => parseNode o.leaf).map (noteValue V hashed) =
      t.zkOutputs.map fun o => o.amount.toNat := by
    refine map_filterMap fun o member => ?_
    obtain ⟨parsed, proved⟩ := legs.zkOutputs o member
    obtain ⟨leaf, found⟩ := Option.isSome_iff_exists.mp parsed
    obtain ⟨proof, decoded, verified⟩ := proved rfl
    obtain ⟨note, amount⟩ := I.mint verified
    have minted : zkMinted I (t.coreHash V) o =
        some (I.mintNote o.amount o.leaf (t.coreHash V) proof) := by
      rw [zkMinted, decoded]
    have value := free.noteValue_eq (opening_hashed known (List.mem_append_left _
      (List.mem_filterMap.mpr ⟨o, member, minted⟩)))
    rw [note, amount] at value
    refine ⟨leaf, found, ?_⟩
    rw [parseNode_eq found, value]
  have changes : (t.czkSpends.filterMap fun s => parseNode s.leafOut).map (noteValue V hashed) =
      t.czkSpends.map fun s => noteValue V hashed s.leafOut := by
    refine map_filterMap fun s member => ?_
    obtain ⟨leaf, found⟩ := Option.isSome_iff_exists.mp (legs.czkSpends s member).2.2.1
    exact ⟨leaf, found, by rw [parseNode_eq found]⟩
  refine ⟨?_, ?_, ?_⟩
  · intro leaf member
    rcases List.mem_append.mp member with spent | spent
    · obtain ⟨input, inputMember, rfl⟩ := List.mem_map.mp spent
      exact (inputs input inputMember).1
    · obtain ⟨s, spendMember, rfl⟩ := List.mem_map.mp spent
      exact (spends s spendMember).1
  · rw [txNotes, List.map_append, List.map_map, List.map_map]
    congr 1
    · refine List.map_congr_left fun input member => ?_
      obtain ⟨-, same, -⟩ := inputs input member
      exact same
    · refine List.map_congr_left fun s member => ?_
      obtain ⟨-, same, -⟩ := spends s member
      exact same
  · have spentPublic : (t.zkInputs.map (zkSpent I (t.coreHash V))).map (noteValue V hashed) =
        t.zkInputs.map fun input => input.amount.toNat := by
      rw [List.map_map]
      refine List.map_congr_left fun input member => ?_
      obtain ⟨-, -, value⟩ := inputs input member
      rw [Function.comp_apply, value]
    have spentHidden : (t.czkSpends.map (czkSpent I (t.coreHash V))).map (noteValue V hashed) =
        t.czkSpends.map fun s => s.fee.toNat + noteValue V hashed s.leafOut := by
      rw [List.map_map]
      refine List.map_congr_left fun s member => ?_
      obtain ⟨-, -, value⟩ := spends s member
      rw [Function.comp_apply, value]
    rw [txNotes, txLeaves, List.map_append, List.map_append, List.sum_append, List.sum_append,
      spentPublic, spentHidden, mints, changes, List.sum_map_add]
    omega

/-- The value of an output. -/
def outputValue (I : Ideal V) (o : Output) : Nat := (I.value o.commitment).toNat

theorem sum_outputValue {outs : List Output}
    (ranges : ∀ o ∈ outs, V.verifyRangeBytes o.commitment o.rangeProof = true) :
    ((commitmentList outs).map I.value).sum = ((outs.map (outputValue I)).sum : Nat) := by
  rw [Nat.cast_list_sum, List.map_map, commitmentList, List.map_map]
  refine congrArg List.sum (List.map_congr_left fun o member => ?_)
  exact (Int.toNat_of_nonneg (I.range (ranges o member)).1).symm

theorem tx_balances {coins : List CoinInfo} {hashed : Set (Node × Node)} {minted : List Node}
    (sound : CoinsSound I L coins) (free : Collisionless V hashed)
    (trees : epochPairs V minted ⊆ hashed) (known : ∀ pair ∈ txPairs I t, pair ∈ hashed)
    (anchored : Anchored V L minted)
    (legs : LegsAccepted V L false t height seen primes next) :
    ((txCoins I L height t).map (keyValue I L)).sum + (t.swapInputs.map (swapAmount L)).sum +
        (t.vaultInputs.map (vaultPrincipal L)).sum +
        (t.vaultInputs.map fun input => input.yield.toNat).sum +
        ((txNotes I t).map (noteValue V hashed)).sum =
      (t.outputs.map (outputValue I)).sum + t.fee.toNat +
        (t.swapOutputs.map fun so => so.amount.toNat).sum +
        (t.vaultOutputs.map fun vo => vo.amount.toNat).sum +
        ((txLeaves t).map (noteValue V hashed)).sum := by
  obtain ⟨_, _, coinSum⟩ := txCoins_spec sound legs
  obtain ⟨_, _, noteSum⟩ := txNotes_spec free trees known anchored legs
  obtain ⟨publicIn, publicOut, inSum, outSum, verified⟩ := legs.conservation rfl
  have outputs := sum_outputValue (I := I) fun o member => (legs.outputs o member).2.1 rfl
  have balance := I.conservation verified
  rw [coinSum, outputs, inSum, outSum, publicInOf, publicOutOf, List.sum_map_add] at balance
  omega

end Transaction

/-! ## One block -/

section Block

variable {V : Primitives} {I : Ideal V} {now : Int} {L L' : Ledger} {b : Block}
  {cb : Transaction} {txs : List Transaction} {coins : List CoinInfo} {minted : List Node}
  {hashed : Set (Node × Node)}

theorem sum_flatMap {α β : Type} (weight : β → Nat) (part : α → List β) (values : List α) :
    ((values.flatMap part).map weight).sum =
      (values.map fun value => ((part value).map weight).sum).sum := by
  induction values with
  | nil => rfl
  | cons value values ih =>
    rw [List.flatMap_cons, List.map_append, List.sum_append, ih, List.map_cons, List.sum_cons]

theorem cmLeaves_eq (txs : List Transaction) : cmLeavesFromTxs txs = txs.flatMap txLeaves := rfl

theorem BlockAccepted.mem_txs {skip : Transaction → Bool}
    (accepted : BlockAccepted V skip now L b cb txs) {t : Transaction} (member : t ∈ txs) :
    t ∈ b.txs := by
  rw [accepted.split]
  exact List.mem_cons_of_mem _ member

/-- **A block balances.** With its base reward it consumes what it creates and
contributes to the pool. -/
theorem BlockAccepted.balances (accepted : BlockAccepted V (fun _ => false) now L b cb txs)
    (sound : CoinsSound I L coins) (free : Collisionless V hashed)
    (trees : epochPairs V minted ⊆ hashed)
    (known : ∀ t ∈ b.txs, ∀ pair ∈ txPairs I t, pair ∈ hashed) (anchored : Anchored V L minted) :
    ((b.txs.flatMap (txCoins I L b.header.height)).map (keyValue I L)).sum +
        ((b.txs.flatMap Transaction.swapInputs).map (swapAmount L)).sum +
        ((b.txs.flatMap Transaction.vaultInputs).map (vaultPrincipal L)).sum + yieldsOf b +
        ((b.txs.flatMap (txNotes I)).map (noteValue V hashed)).sum +
        (Config.blockReward L.emitted).toNat =
      ((b.txs.flatMap Transaction.outputs).map (outputValue I)).sum +
        ((b.txs.flatMap Transaction.swapOutputs).map fun so => so.amount.toNat).sum +
        ((b.txs.flatMap Transaction.vaultOutputs).map fun vo => vo.amount.toNat).sum +
        ((cmLeavesFromTxs b.txs).map (noteValue V hashed)).sum + contribution L := by
  have each : txs.map (fun t => ((txCoins I L b.header.height t).map (keyValue I L)).sum +
      (t.swapInputs.map (swapAmount L)).sum + (t.vaultInputs.map (vaultPrincipal L)).sum +
      (t.vaultInputs.map fun input => input.yield.toNat).sum +
      ((txNotes I t).map (noteValue V hashed)).sum) =
      txs.map fun t => (t.outputs.map (outputValue I)).sum + t.fee.toNat +
        (t.swapOutputs.map fun so => so.amount.toNat).sum +
        (t.vaultOutputs.map fun vo => vo.amount.toNat).sum +
        ((txLeaves t).map (noteValue V hashed)).sum := by
    refine List.map_congr_left fun t member => ?_
    obtain ⟨_, _, _, legs⟩ := accepted.legs t member
    exact tx_balances sound free trees (known t (accepted.mem_txs member)) anchored legs
  have all := congrArg List.sum each
  simp only [List.sum_map_add] at all
  have legs := accepted.coinbase
  have coinbaseOutputs : (cb.outputs.map (outputValue I)).sum = cb.minted.toNat := by
    obtain ⟨ctx, verified⟩ := accepted.coinbaseConservation
    have value := sum_outputValue (I := I) fun o member => (accepted.coinbaseOutputs o member).2.1
    have balance := I.coinbase verified
    rw [value] at balance
    exact_mod_cast balance
  have minted' : cb.minted.toNat + contribution L =
      (Config.blockReward L.emitted).toNat + (txs.map fun t => t.fee.toNat).sum :=
    accepted.minted
  have noCoins : txCoins I L b.header.height cb = [] := by
    simp [txCoins, legs.inputs, legs.anonInputs]
  have noNotes : txNotes I cb = [] := by
    simp [txNotes, legs.zkInputs, legs.czkSpends]
  have noLeaves : txLeaves cb = [] := by
    simp [txLeaves, legs.zkOutputs, legs.czkSpends]
  rw [yieldsOf, cmLeaves_eq, accepted.flatMap_txs _ noCoins, accepted.flatMap_txs _ legs.swapInputs,
    accepted.flatMap_txs _ legs.vaultInputs, accepted.flatMap_txs _ noNotes,
    accepted.flatMap_txs _ legs.swapOutputs, accepted.flatMap_txs _ legs.vaultOutputs,
    accepted.flatMap_txs _ noLeaves, accepted.split, List.flatMap_cons, List.map_append,
    List.sum_append, coinbaseOutputs]
  simp only [sum_flatMap]
  omega

/-! ### How the totals move -/

/-- Adding outputs adds their values. -/
theorem total_coins {s : CoinStore} {outs : List (Bool × Output)} {height : Nat}
    (new : ∀ entry ∈ outs, s.coinByKey entry.2.oneTimeKey = none)
    (distinct : (outs.map fun entry => entry.2.oneTimeKey).Nodup) :
    OrdMap.total (coinValue I) (outs.foldl (addOutputCoin height) s).coins =
      OrdMap.total (coinValue I) s.coins + (outs.map fun entry => outputValue I entry.2).sum := by
  induction outs generalizing s with
  | nil => rfl
  | cons entry outs ih =>
    rw [List.map_cons, List.nodup_cons] at distinct
    have added := OrdMap.total_insert (coinValue I) s.coins
      ⟨entry.2.oneTimeKey, entry.2.commitment, height, entry.1, entry.2.lockUntil, s.coinCount⟩
      (new entry (by simp))
    have later : ∀ other ∈ outs,
        (addOutputCoin height s entry).coinByKey other.2.oneTimeKey = none := by
      intro other member
      have different : hexstr entry.2.oneTimeKey ≠ hexstr other.2.oneTimeKey := by
        intro same
        refine distinct.1 ?_
        rw [hexstr_injective same]
        exact List.mem_map_of_mem (f := fun entry : Bool × Output => entry.2.oneTimeKey) member
      change (s.coins.insert _ _)[_]? = none
      rw [OrdMap.lookup_insert, if_neg different]
      exact new other (List.mem_cons_of_mem _ member)
    rw [List.foldl_cons, ih later distinct.2, List.map_cons, List.sum_cons]
    change OrdMap.total (coinValue I) (s.coins.insert _ _) + _ = _
    rw [added]
    change outputValue I entry.2 + _ + _ = _
    omega

theorem toNat_addOrKeep (pool word : UInt64) :
    (if pool ≤ pool + word then pool + word else pool).toNat =
      if pool.toNat + word.toNat < 2 ^ 64 then pool.toNat + word.toNat else pool.toNat := by
  have bound := pool.toNat_lt
  have wordBound := word.toNat_lt
  by_cases fits : pool.toNat + word.toNat < 2 ^ 64
  · have grows : pool ≤ pool + word := by
      rw [UInt64.le_iff_toNat_le, UInt64.toNat_add, Nat.mod_eq_of_lt fits]
      omega
    rw [if_pos grows, if_pos fits, UInt64.toNat_add, Nat.mod_eq_of_lt fits]
  · have wraps : ¬ pool ≤ pool + word := by
      rw [UInt64.le_iff_toNat_le, UInt64.toNat_add]
      omega
    rw [if_neg wraps, if_neg fits]

theorem outputs_outputsOf (txs : List Transaction) :
    (outputsOf txs).map (fun entry => outputValue I entry.2) =
      (txs.flatMap Transaction.outputs).map (outputValue I) := by
  unfold outputsOf
  rw [List.map_flatMap, List.map_flatMap]
  refine List.flatMap_congr fun t _ => ?_
  rw [List.map_map]
  rfl

variable (accepted : BlockAccepted V (fun _ => false) now L b cb txs)
  (applied : Applied V L b cb L')

include accepted applied

omit applied in
theorem BlockAccepted.coinTags (sound : CoinsSound I L coins) :
    (b.txs.flatMap (txCoins I L b.header.height)).map I.nullifierOf =
      blockTagsFromTxs V b.txs := by
  have legs := accepted.coinbase
  rw [blockTagsFromTxs,
    accepted.flatMap_txs (txTags V) (by simp [txTags, accepted.isCoinbase]),
    accepted.flatMap_txs (txCoins I L b.header.height)
      (by simp [txCoins, legs.inputs, legs.anonInputs]), List.map_flatMap]
  refine List.flatMap_congr fun t member => ?_
  obtain ⟨_, _, _, txLegs⟩ := accepted.legs t member
  have plain := accepted.plain t (by rw [accepted.split]; exact List.mem_cons_of_mem _ member)
  rw [(txCoins_spec sound txLegs).2.1, txTags_of_plain plain]

omit applied in
theorem BlockAccepted.coins_known (sound : CoinsSound I L coins) :
    ∀ key ∈ b.txs.flatMap (txCoins I L b.header.height), ∃ coin ∈ coins, coin.key = key := by
  have legs := accepted.coinbase
  intro key member
  rw [accepted.flatMap_txs _ (by simp [txCoins, legs.inputs, legs.anonInputs]),
    List.mem_flatMap] at member
  obtain ⟨t, txMember, member⟩ := member
  obtain ⟨_, _, _, txLegs⟩ := accepted.legs t txMember
  exact (txCoins_spec sound txLegs).1 key member

omit applied in
theorem BlockAccepted.noteMarks (free : Collisionless V hashed)
    (trees : epochPairs V minted ⊆ hashed)
    (known : ∀ t ∈ b.txs, ∀ pair ∈ txPairs I t, pair ∈ hashed) (anchored : Anchored V L minted) :
    (b.txs.flatMap (txNotes I)).map (fun leaf => hexstr (noteNullifier V hashed leaf)) =
      noteNullifiers b.txs := by
  have legs := accepted.coinbase
  rw [noteNullifiers,
    accepted.flatMap_txs (txNotes I) (by simp [txNotes, legs.zkInputs, legs.czkSpends]),
    accepted.flatMap_txs _ (by simp [legs.zkInputs, legs.czkSpends]), List.map_flatMap]
  refine List.flatMap_congr fun t member => ?_
  obtain ⟨_, _, _, txLegs⟩ := accepted.legs t member
  have nullifiers := congrArg (List.map hexstr)
    (txNotes_spec free trees (known t (accepted.mem_txs member)) anchored txLegs).2.1
  rw [List.map_map, List.map_append, List.map_map, List.map_map] at nullifiers
  exact nullifiers

omit applied in
theorem BlockAccepted.notes_known (free : Collisionless V hashed)
    (trees : epochPairs V minted ⊆ hashed)
    (known : ∀ t ∈ b.txs, ∀ pair ∈ txPairs I t, pair ∈ hashed) (anchored : Anchored V L minted) :
    ∀ leaf ∈ b.txs.flatMap (txNotes I), leaf ∈ minted := by
  have legs := accepted.coinbase
  intro leaf member
  rw [accepted.flatMap_txs _ (by simp [txNotes, legs.zkInputs, legs.czkSpends]),
    List.mem_flatMap] at member
  obtain ⟨t, txMember, member⟩ := member
  obtain ⟨_, _, _, txLegs⟩ := accepted.legs t txMember
  exact (txNotes_spec free trees (known t (accepted.mem_txs txMember)) anchored txLegs).1 leaf
    member

omit applied in
theorem BlockAccepted.marks_new : ∀ key ∈ noteNullifiers b.txs, inSet L.zkNull key = false := by
  have legs := accepted.coinbase
  intro key member
  rw [noteNullifiers, accepted.flatMap_txs _ (by simp [legs.zkInputs, legs.czkSpends]),
    List.mem_flatMap] at member
  obtain ⟨t, txMember, member⟩ := member
  obtain ⟨_, _, _, txLegs⟩ := accepted.legs t txMember
  rcases List.mem_append.mp member with spent | spent
  · obtain ⟨input, inputMember, rfl⟩ := List.mem_map.mp spent
    exact (txLegs.zkInputs input inputMember).1
  · obtain ⟨s, spendMember, rfl⟩ := List.mem_map.mp spent
    exact (txLegs.czkSpends s spendMember).1

omit applied in
/-- What a block creates has no negative value. -/
theorem BlockAccepted.coins_nonnegative (start : Nat) :
    ∀ coin ∈ coinsOf b.header.height start (outputsOf b.txs), 0 ≤ I.value coin.commitment := by
  have outputs : ∀ entry ∈ outputsOf b.txs, 0 ≤ I.value entry.2.commitment := by
    intro entry member
    simp only [outputsOf, List.mem_flatMap, List.mem_map] at member
    obtain ⟨t, txMember, o, outMember, rfl⟩ := member
    rw [accepted.split, List.mem_cons] at txMember
    rcases txMember with rfl | txMember
    · exact (I.range (accepted.coinbaseOutputs o outMember).2.1).1
    · obtain ⟨_, _, _, txLegs⟩ := accepted.legs t txMember
      exact (I.range ((txLegs.outputs o outMember).2.1 rfl)).1
  generalize outputsOf b.txs = outs at outputs
  induction outs generalizing start with
  | nil => simp [coinsOf]
  | cons entry outs ih =>
    intro coin member
    rcases List.mem_cons.mp member with rfl | later
    · exact outputs entry (by simp)
    · exact ih (start + 1) (fun other otherMember =>
        outputs other (List.mem_cons_of_mem _ otherMember)) coin later

theorem Applied.total_coins :
    OrdMap.total (coinValue I) L'.coins.coins = OrdMap.total (coinValue I) L.coins.coins +
      ((b.txs.flatMap Transaction.outputs).map (outputValue I)).sum := by
  have new : ∀ entry ∈ outputsOf b.txs, L.coins.coinByKey entry.2.oneTimeKey = none := by
    intro entry member
    simp only [outputsOf, List.mem_flatMap, List.mem_map] at member
    obtain ⟨t, txMember, o, outMember, rfl⟩ := member
    exact (accepted.outputs_new txMember outMember).1
  rw [applied.coins, Obscura.total_coins new accepted.coinKeys_nodup, outputs_outputsOf]

/-- The value of the swaps: what is opened comes in, what is closed goes out. -/
theorem Applied.total_swaps :
    OrdMap.total (fun sw => sw.amount.toNat) L'.swaps +
        ((b.txs.flatMap Transaction.swapInputs).map (swapAmount L)).sum =
      OrdMap.total (fun sw => sw.amount.toNat) L.swaps +
        ((b.txs.flatMap Transaction.swapOutputs).map fun so => so.amount.toNat).sum := by
  have opened : ((openedSwaps b.txs).map Prod.fst).Nodup := by
    rw [openedSwaps, List.map_map]
    exact accepted.openedSwaps_nodup
  have absent : ∀ entry ∈ openedSwaps b.txs,
      (OrdMap.eraseAll L.swaps (closedSwaps b.txs))[entry.1]? = none := by
    intro entry member
    obtain ⟨so, outMember, rfl⟩ := List.mem_map.mp member
    rw [accepted.swapOutputs_eq, List.mem_flatMap] at outMember
    obtain ⟨t, txMember, outMember⟩ := outMember
    obtain ⟨_, _, _, legs⟩ := accepted.legs t txMember
    rw [OrdMap.lookup_eraseAll, (legs.swapOutputs so outMember).1, ite_self]
  have live : ∀ key ∈ closedSwaps b.txs, L.swaps[key]? ≠ none := by
    intro key member
    rw [closedSwaps, accepted.flatMap_txs _ (by simp [accepted.coinbase.swapInputs]),
      List.mem_flatMap] at member
    obtain ⟨t, txMember, member⟩ := member
    obtain ⟨input, inputMember, rfl⟩ := List.mem_map.mp member
    obtain ⟨_, _, _, legs⟩ := accepted.legs t txMember
    obtain ⟨sw, found, _⟩ := legs.swapInputs input inputMember
    rw [found]
    exact Option.some_ne_none sw
  have removed := OrdMap.total_eraseAll (fun sw : SwapEntry => sw.amount.toNat) L.swaps
    accepted.closedSwaps_nodup live
  have amounts : (closedSwaps b.txs).map
      (fun key => L.swaps[key]?.elim 0 fun sw => sw.amount.toNat) =
      (b.txs.flatMap Transaction.swapInputs).map (swapAmount L) := by
    rw [closedSwaps, List.map_flatMap, List.map_flatMap]
    refine List.flatMap_congr fun t _ => ?_
    rw [List.map_map]
    rfl
  have added := OrdMap.total_insertAll (fun sw : SwapEntry => sw.amount.toNat) _ opened absent
  have funded : (openedSwaps b.txs).map (fun entry => entry.2.amount.toNat) =
      (b.txs.flatMap Transaction.swapOutputs).map fun so => so.amount.toNat := by
    rw [openedSwaps, List.map_map]
    rfl
  rw [applied.swaps, added, funded, ← removed, amounts]
  omega

/-- The value of the vaults: what is opened comes in, what is claimed goes out. -/
theorem Applied.total_vaults :
    OrdMap.total (fun v => v.amount.toNat) L'.vaults +
        ((b.txs.flatMap Transaction.vaultInputs).map (vaultPrincipal L)).sum =
      OrdMap.total (fun v => v.amount.toNat) L.vaults +
        ((b.txs.flatMap Transaction.vaultOutputs).map fun vo => vo.amount.toNat).sum := by
  have legs := accepted.vaultLegs
  have opened : ((openedVaults b.txs b.header.height).map Prod.fst).Nodup := by
    rw [openedVaults, List.map_map]
    exact legs.deposits
  have absent : ∀ entry ∈ openedVaults b.txs b.header.height,
      (OrdMap.eraseAll L.vaults (closedVaults b.txs))[entry.1]? = none := by
    intro entry member
    obtain ⟨vo, outMember, rfl⟩ := List.mem_map.mp member
    rw [OrdMap.lookup_eraseAll, legs.unregistered vo outMember, ite_self]
  have live : ∀ key ∈ closedVaults b.txs, L.vaults[key]? ≠ none := by
    intro key member
    obtain ⟨input, inputMember, rfl⟩ := List.mem_map.mp member
    exact legs.claims.live input inputMember
  have removed := OrdMap.total_eraseAll (fun v : VaultEntry => v.amount.toNat) L.vaults
    accepted.closedVaults_nodup live
  have principals : (closedVaults b.txs).map
      (fun key => L.vaults[key]?.elim 0 fun v => v.amount.toNat) =
      (b.txs.flatMap Transaction.vaultInputs).map (vaultPrincipal L) := by
    rw [closedVaults, List.map_map]
    rfl
  have added := OrdMap.total_insertAll (fun v : VaultEntry => v.amount.toNat) _ opened absent
  have deposited : (openedVaults b.txs b.header.height).map (fun entry => entry.2.amount.toNat) =
      (b.txs.flatMap Transaction.vaultOutputs).map fun vo => vo.amount.toNat := by
    rw [openedVaults, List.map_map]
    rfl
  rw [applied.vaults, added, deposited, ← removed, principals]
  omega

omit accepted in
theorem Applied.total_pool (height : b.header.height ≠ 0) :
    L'.incentivePool.toNat + yieldsOf b +
        (if L.incentivePool.toNat - yieldsOf b + contribution L < 2 ^ 64 then 0
          else contribution L) =
      L.incentivePool.toNat + contribution L := by
  obtain ⟨paid, sum, pool⟩ := applied.pool
  have left : L.incentivePool.toNat - yieldsOf b = paid.toNat := by
    unfold yieldsOf
    omega
  have settled : L'.incentivePool.toNat =
      if paid.toNat + contribution L < 2 ^ 64 then paid.toNat + contribution L
      else paid.toNat := by
    rw [pool, applyEconomics, if_neg height]
    exact toNat_addOrKeep paid _
  rw [left, settled]
  unfold yieldsOf
  split <;> omega

/-- Withdrawals close vaults, deposits open new ones. -/
theorem Applied.vaultRegistry {closed : List (Bytes × UInt64)}
    (height : b.header.height = L.headers.length)
    (sound : Registry.Sound vaultIdentity (fun id => id.2.toNat < L.headers.length) L.vaults
      closed) :
    Registry.Sound vaultIdentity (fun id => id.2.toNat < L'.headers.length) L'.vaults
      (Registry.identities vaultIdentity L.vaults (closedVaults b.txs) ++ closed) := by
  have deposited : ∀ entry ∈ openedVaults b.txs b.header.height,
      (vaultIdentity entry.1 entry.2).2.toNat = L.headers.length := by
    intro entry member
    obtain ⟨vo, _, rfl⟩ := List.mem_map.mp member
    have word : b.header.height < 2 ^ 64 := by
      rw [← accepted.coinbaseHeight]
      exact cb.height.toNat_lt
    change (UInt64.ofNat b.header.height).toNat = _
    rw [UInt64.toNat_ofNat', Nat.mod_eq_of_lt word, height]
  have keys : ((openedVaults b.txs b.header.height).map Prod.fst).Nodup := by
    rw [openedVaults, List.map_map]
    exact accepted.openedVaults_nodup
  have length : L'.headers.length = L.headers.length + 1 := by
    rw [applied.headers, List.length_append, List.length_singleton]
  rw [applied.vaults]
  refine (sound.close accepted.closedVaults_nodup).openAll keys ?_ ?_ ?_ ?_
  · intro entry member used
    have recent := deposited entry member
    omega
  · refine List.Nodup.of_map Prod.fst ?_
    rw [List.map_map]
    exact keys
  · intro entry member
    have recent := deposited entry member
    omega
  · intro id used
    omega

end Block

theorem BlockAccepted.nonces_new {V : Primitives} {skip : Transaction → Bool} {now : Int}
    {L : Ledger} {b : Block} {cb : Transaction} {txs : List Transaction}
    (accepted : BlockAccepted V skip now L b cb txs) :
    ∀ entry ∈ openedSwaps b.txs, inSet L.swapNonces (hexstr entry.2.claimR) = false := by
  intro entry member
  obtain ⟨so, outMember, rfl⟩ := List.mem_map.mp member
  rw [accepted.swapOutputs_eq, List.mem_flatMap] at outMember
  obtain ⟨t, txMember, outMember⟩ := outMember
  obtain ⟨_, _, _, legs⟩ := accepted.legs t txMember
  exact (legs.swapOutputs so outMember).2

theorem Applied.swapRegistry {V : Primitives} {skip : Transaction → Bool} {now : Int}
    {L L' : Ledger} {b : Block} {cb : Transaction} {txs : List Transaction}
    (accepted : BlockAccepted V skip now L b cb txs) (applied : Applied V L b cb L')
    {closed : List Bytes}
    (sound : Registry.Sound swapIdentity (fun nonce => inSet L.swapNonces (hexstr nonce) = true)
      L.swaps closed) :
    Registry.Sound swapIdentity (fun nonce => inSet L'.swapNonces (hexstr nonce) = true) L'.swaps
      (Registry.identities swapIdentity L.swaps (closedSwaps b.txs) ++ closed) := by
  rw [applied.swaps, applied.swapNonces]
  refine (sound.close accepted.closedSwaps_nodup).openAll ?_ ?_ ?_ ?_ ?_
  · rw [openedSwaps, List.map_map]
    exact accepted.openedSwaps_nodup
  · intro entry member used
    exact Bool.noConfusion ((accepted.nonces_new entry member).symm.trans used)
  · refine List.Nodup.of_map hexstr ?_
    rw [openedSwaps, List.map_map, List.map_map]
    exact accepted.openedNonces_nodup
  · intro entry member
    obtain ⟨so, outMember, rfl⟩ := List.mem_map.mp member
    exact inSet_markAll_mem (List.mem_map_of_mem (f := fun so => hexstr so.claimR) outMember)
  · intro nonce used
    exact inSet_markAll_old used

end Obscura
