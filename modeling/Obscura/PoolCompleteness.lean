import Mathlib.Tactic.NormNum.Prime
import Obscura.Commit.Completeness
import Obscura.Locks

/-! # Spending from a pool

The ring of an anonymous spend is a pool of outputs of strangers. `checkOutput` asks of an
output that its key is a canonical point other than the identity; it does not ask for the
prime-order subgroup. A stranger who adds a torsion component to a key keeps an honest
owner in the same pool from spending, for some coins of the prover.
-/

namespace Obscura

open Wire Tx Checked Commit

section Pool

variable {V : Primitives} {L : Nat}

/-- The points that strings decode to, as the primitives see them. -/
structure PointEncoding (V : Primitives) (L : Nat) where
  decode : Bytes → Option (Curve L)
  pointDecodes : ∀ bytes, V.pointDecodes bytes = (decode bytes).isSome
  pointIsIdentity : ∀ bytes, V.pointIsIdentity bytes = true ↔ decode bytes = some 0
  verifyRange : ∀ commitment proof, V.verifyRangeBytes commitment proof = true →
    (decode commitment).isSome = true

/-- The coin comes from an output that `checkOutput` accepted with its range proof. -/
def CheckedOutput (V : Primitives) (coin : CoinInfo) : Prop :=
  ∃ (ledger : Ledger) (seen : List Bytes) (o : Output) (result : Bytes × List Bytes),
    checkOutput V ledger false seen o = .ok result ∧
      coin.key = o.oneTimeKey ∧ coin.commitment = o.commitment

/-! ## The coins of a chain -/

theorem checkOutputs_each {ledger : Ledger} {skip : Bool} {outs : List Output}
    {seen : List Bytes} {result : List Bytes × List Bytes}
    (accepted : checkOutputs V ledger skip seen outs = .ok result) :
    ∀ o ∈ outs, ∃ seen result, checkOutput V ledger skip seen o = .ok result := by
  refine foldlM_forall _ ?_ accepted
  rintro ⟨primes, before⟩ o next step
  obtain ⟨pb, checked, -⟩ := bind_ok.mp step
  exact ⟨before, pb, checked⟩

/-- Every output of an accepted block was checked. -/
theorem validateBlock_checked {now : Int} {ledger : Ledger} {b : Block}
    (noPQ : ledger.pqUtxo = ∅)
    (accepted : validateBlockLocked V (fun _ => false) now ledger b = .ok ()) :
    ∀ t ∈ b.txs, ∀ o ∈ t.outputs, ∃ seen result,
      checkOutput V ledger false seen o = .ok result := by
  unfold validateBlockLocked at accepted
  simp only [bind_ok, reject_ok, orReject_ok, exists_const, Prod.exists] at accepted
  obtain ⟨_, -, _, -, cb, listOk, _, _, minted, _, -, _, tallyRun, -⟩ := accepted
  obtain ⟨-, txs, split⟩ := checkTxList_ok listOk
  rw [split, List.tail_cons] at tallyRun
  rw [split]
  intro t member
  rcases List.mem_cons.mp member with rfl | member
  · exact checkOutputs_each minted
  · refine foldlM_forall (fun t => ∀ o ∈ t.outputs, ∃ seen result,
      checkOutput V ledger false seen o = .ok result) ?_ tallyRun t member
    intro tally t next step
    unfold tallyTx at step
    simp only [bind_ok, mapError_ok, Prod.exists] at step
    obtain ⟨primes, seen, valid, -⟩ := step
    obtain ⟨-, classical, -⟩ := validateTx_classical noPQ valid
    unfold validateTxLocked validateLegs at valid
    rw [classical] at valid
    simp only [bind_ok, reject_ok, exists_const, Prod.exists, Bool.false_eq_true, ↓reduceIte]
      at valid
    obtain ⟨-, _, -, _, -, _, -, _, _, -, _, _, -, _, _, -, _, _, -, _, _, outputs, -⟩ := valid
    exact checkOutputs_each outputs

theorem coinsOf_output {height start : Nat} {outs : List (Bool × Output)} {coin : CoinInfo}
    (member : coin ∈ coinsOf height start outs) :
    ∃ entry ∈ outs, coin.key = entry.2.oneTimeKey ∧ coin.commitment = entry.2.commitment := by
  induction outs generalizing start with
  | nil => exact absurd member List.not_mem_nil
  | cons entry outs ih =>
    rcases List.mem_cons.mp member with rfl | later
    · exact ⟨entry, List.mem_cons_self, rfl, rfl⟩
    · obtain ⟨other, listed, same⟩ := ih later
      exact ⟨other, List.mem_cons_of_mem _ listed, same⟩

theorem Chained.checked {chain : List Block} (chained : Chained V (Verified V) chain) :
    ∀ coin ∈ (chainLists V chain).coins, CheckedOutput V coin := by
  induction chain with
  | nil => exact fun coin member => absurd member List.not_mem_nil
  | cons b older ih =>
    obtain ⟨below, ⟨now, accepted⟩, -⟩ := chained
    intro coin member
    rw [chainLists, StoreLists.append] at member
    rcases List.mem_append.mp member with old | fresh
    · exact ih below coin old
    · obtain ⟨⟨_, o⟩, listed, key, commitment⟩ := coinsOf_output fresh
      obtain ⟨t, inBlock, inOutputs⟩ := List.mem_flatMap.mp listed
      obtain ⟨o', outputs, same⟩ := List.mem_map.mp inOutputs
      obtain ⟨-, rfl⟩ := Prod.mk.inj same
      have regular := (below.mono fun _ _ => Verified.admitted).regular
      obtain ⟨seen, result, checked⟩ :=
        validateBlock_checked regular.noPQOutput accepted t inBlock o' outputs
      exact ⟨_, seen, o', result, checked, key, commitment⟩

theorem mapM_length {α β : Type} {f : α → Option β} {values : List α} {results : List β}
    (run : values.mapM f = some results) : results.length = values.length := by
  induction values generalizing results with
  | nil =>
    obtain rfl := Option.some.inj run
    rfl
  | cons value values ih =>
    simp only [List.mapM_cons, Option.bind_eq_bind, Option.bind_eq_some_iff] at run
    obtain ⟨first, -, rest, tail, same⟩ := run
    obtain rfl := Option.some.inj same
    rw [List.length_cons, ih tail, List.length_cons]

theorem poolMembers_length {ledger : Ledger} {poolID height : Nat} {members : List CoinInfo}
    (pool : ledger.poolMembers poolID height = some members) :
    members.length = Config.poolSize := by
  unfold Ledger.poolMembers at pool
  dsimp only at pool
  split_ifs at pool
  rw [mapM_length pool, List.length_range']

/-! ## The honest owner -/

/-- The output holds a point of the prime-order part. -/
def PrimePoint (enc : PointEncoding V L) (bytes : Bytes) : Prop :=
  ∃ P, enc.decode bytes = some P ∧ InPrimeOrder P

/-- The owner of a member: the secret of its key, and the amount and blinding of its commitment. -/
structure Owner (enc : PointEncoding V L) (gens : Generators (Curve L)) (members : List CoinInfo)
    (l : Nat) (x v r : ZMod L) : Prop where
  member : ∃ coin, members[l]? = some coin ∧
    enc.decode coin.key = some (scalarMult x gens.G) ∧
    enc.decode coin.commitment = some (commScalar gens v r)

/-- The proof over the pool, for a pseudo-commitment to the same amount, passes for all coins of
the prover and all challenge hashes. -/
def SpendCompletes [Fact L.Prime] (enc : PointEncoding V L) (gens : Generators (Curve L))
    (members : List CoinInfo) (l : Nat) (x v r rp : ZMod L) : Prop :=
  ∃ ownRing commits, members.mapM (fun coin => enc.decode coin.key) = some ownRing ∧
    members.mapM (fun coin => enc.decode coin.commitment) = some commits ∧
    Completes gens ownRing (commits.map fun C => C - commScalar gens v rp) l x (r - rp)

theorem CheckedOutput.decodes {coin : CoinInfo} (enc : PointEncoding V L)
    (checked : CheckedOutput V coin) :
    (∃ P, enc.decode coin.key = some P ∧ P ≠ 0) ∧ ∃ C, enc.decode coin.commitment = some C := by
  obtain ⟨ledger, seen, o, result, accepted, key, commitment⟩ := checked
  obtain ⟨-, point, range, -⟩ := checkOutput_ok.mp accepted
  rw [badPoint, Bool.or_eq_false_iff, Bool.not_eq_false', enc.pointDecodes] at point
  rw [key, commitment]
  obtain ⟨P, found⟩ := Option.isSome_iff_exists.mp point.1
  refine ⟨⟨P, found, ?_⟩, Option.isSome_iff_exists.mp (enc.verifyRange _ _ (range rfl))⟩
  rintro rfl
  rw [(enc.pointIsIdentity _).mpr found] at point
  exact Bool.true_eq_false_eq_False point.2

section Owned

variable [Fact L.Prime] {enc : PointEncoding V L} {gens : Generators (Curve L)}
  {members : List CoinInfo} {l : Nat} {x v r : ZMod L}

/-- The two rings of a pool, and what its owner opens. -/
theorem Owner.owns (owner : Owner enc gens members l x v r) (prime : gens.Prime)
    (checked : ∀ coin ∈ members, CheckedOutput V coin)
    (full : members.length = Config.poolSize) (rp : ZMod L) :
    x ≠ 0 ∧ ∃ ownRing commits, members.mapM (fun coin => enc.decode coin.key) = some ownRing ∧
      members.mapM (fun coin => enc.decode coin.commitment) = some commits ∧
      Owns gens ownRing (commits.map fun C => C - commScalar gens v rp) 4 l x (r - rp) ∧
      ∀ i coin, members[i]? = some coin →
        enc.decode coin.key = some (ownRing.getD i 0) ∧ ∃ C, enc.decode coin.commitment = some C ∧
          (commits.map fun C => C - commScalar gens v rp).getD i 0 = C - commScalar gens v rp := by
  obtain ⟨coin, listed, key, commitment⟩ := owner.member
  have inside : l < 2 ^ 4 := by
    obtain ⟨low, -⟩ := List.getElem?_eq_some_iff.mp listed
    rw [full] at low
    exact low
  constructor
  · rintro rfl
    obtain ⟨⟨P, found, nonzero⟩, -⟩ :=
      (checked coin (List.mem_of_getElem? listed)).decodes enc
    rw [key] at found
    refine nonzero ((Option.some.inj found).symm.trans ?_)
    rw [scalarMult, ZMod.val_zero, zero_smul]
  have keys : members.mapM (fun coin => enc.decode coin.key) =
      some (members.map fun coin => (enc.decode coin.key).getD 0) := by
    refine mapM_eq_map fun coin member => ?_
    obtain ⟨⟨P, found, -⟩, -⟩ := (checked coin member).decodes enc
    rw [found, Option.getD_some]
  have commits : members.mapM (fun coin => enc.decode coin.commitment) =
      some (members.map fun coin => (enc.decode coin.commitment).getD 0) := by
    refine mapM_eq_map fun coin member => ?_
    obtain ⟨-, C, found⟩ := (checked coin member).decodes enc
    rw [found, Option.getD_some]
  have each : ∀ i coin, members[i]? = some coin →
      enc.decode coin.key =
          some ((members.map fun coin => (enc.decode coin.key).getD 0).getD i 0) ∧
        ∃ C, enc.decode coin.commitment = some C ∧
          ((members.map fun coin => (enc.decode coin.commitment).getD 0).map
            fun C => C - commScalar gens v rp).getD i 0 = C - commScalar gens v rp := by
    intro i coin listed
    obtain ⟨⟨P, keyFound, -⟩, C, found⟩ :=
      (checked coin (List.mem_of_getElem? listed)).decodes enc
    refine ⟨?_, C, found, ?_⟩
    · rw [List.getD_eq_getElem?_getD, List.getElem?_map, listed, Option.map_some,
        Option.getD_some, keyFound, Option.getD_some]
    · rw [List.map_map, List.getD_eq_getElem?_getD, List.getElem?_map, listed, Option.map_some,
        Option.getD_some, Function.comp_apply, found, Option.getD_some]
  refine ⟨_, _, keys, commits, ?_, each⟩
  obtain ⟨keyFound, C, found, value⟩ := each l coin listed
  constructor
  case ownSize => rw [List.length_map, full]; rfl
  case valSize => rw [List.length_map, List.length_map, full]; rfl
  case inside => exact inside
  case key => exact Option.some.inj (keyFound.symm.trans key)
  case value =>
    rw [value, ← Option.some.inj (commitment.symm.trans found)]
    refine Prod.ext ?_ ?_
    · simp only [commScalar, Prod.fst_sub, Prod.fst_add, scalarMult_fst]
      ring
    · rw [Prod.snd_sub, commScalar_prime prime, commScalar_prime prime, scalarMult_prime prime.G,
        sub_zero]

/-- **An honest owner's spend.** Over a full pool of outputs that `checkOutput` accepted, the proof
of the owner of the member `l` passes if and only if every member whose index shares a binary
digit with `l` has its key and its commitment in the prime-order subgroup. -/
theorem spendCompletes_iff (prime : gens.Prime) (large : Config.poolSize < L)
    (owner : Owner enc gens members l x v r)
    (checked : ∀ coin ∈ members, CheckedOutput V coin)
    (full : members.length = Config.poolSize) (rp : ZMod L) :
    SpendCompletes enc gens members l x v r rp ↔
      ∀ i coin, members[i]? = some coin → SharesDigit 4 i l →
        PrimePoint enc coin.key ∧ PrimePoint enc coin.commitment := by
  obtain ⟨nonzero, ownRing, commits, keys, values, owns, each⟩ :=
    owner.owns prime checked full rp
  have odd : 2 < L := lt_trans (by decide) large
  have same : SpendCompletes enc gens members l x v r rp ↔
      Completes gens ownRing (commits.map fun C => C - commScalar gens v rp) l x (r - rp) := by
    constructor
    · rintro ⟨ownRing', commits', keys', values', complete⟩
      obtain rfl := Option.some.inj (keys.symm.trans keys')
      obtain rfl := Option.some.inj (values.symm.trans values')
      exact complete
    · exact fun complete => ⟨ownRing, commits, keys, values, complete⟩
  rw [same, completes_iff prime owns nonzero odd large]
  have torsion (C : Curve L) : InPrimeOrder (C - commScalar gens v rp) ↔ InPrimeOrder C := by
    unfold InPrimeOrder
    rw [Prod.snd_sub, commScalar_prime prime, sub_zero]
  constructor
  · intro clean i coin listed shares
    obtain ⟨key, C, found, value⟩ := each i coin listed
    have below : i < 2 ^ 4 := by
      obtain ⟨low, -⟩ := List.getElem?_eq_some_iff.mp listed
      rw [full] at low
      exact low
    obtain ⟨keyPrime, valuePrime⟩ := clean i below shares
    rw [value, torsion] at valuePrime
    exact ⟨⟨_, key, keyPrime⟩, C, found, valuePrime⟩
  · intro clean i below shares
    obtain ⟨coin, listed⟩ : ∃ coin, members[i]? = some coin :=
      ⟨_, List.getElem?_eq_getElem (by rw [full]; exact below)⟩
    obtain ⟨key, C, found, value⟩ := each i coin listed
    obtain ⟨⟨P, keyFound, keyPrime⟩, C', found', valuePrime⟩ := clean i coin listed shares
    rw [value, torsion]
    rw [key] at keyFound
    rw [found] at found'
    obtain rfl := Option.some.inj keyFound
    obtain rfl := Option.some.inj found'
    exact ⟨keyPrime, valuePrime⟩

/-- **Completeness over a pool.** In every state, over every full and mature pool of outputs that
`checkOutput` accepted, the proof of the owner of the member `l` passes if and only if every
member whose index shares a binary digit with `l` is in the prime-order subgroup. -/
theorem pool_spend_completes_iff {ledger : Ledger} {poolID height : Nat} (prime : gens.Prime)
    (large : Config.poolSize < L) (pool : ledger.poolMembers poolID height = some members)
    (checked : ∀ coin ∈ members, CheckedOutput V coin)
    (owner : Owner enc gens members l x v r) (rp : ZMod L) :
    SpendCompletes enc gens members l x v r rp ↔
      ∀ i coin, members[i]? = some coin → SharesDigit 4 i l →
        PrimePoint enc coin.key ∧ PrimePoint enc coin.commitment :=
  spendCompletes_iff prime large owner checked (poolMembers_length pool) rp

end Owned

end Pool

/-! ## A poisoned pool -/

section Poisoned

open Forge Testnet

instance primeOrder : Fact (Nat.Prime 17) := ⟨by norm_num⟩

/-- Points of a small curve: one key has a torsion component. -/
def curveOf (poison : Bytes) : PointEncoding net 17 where
  decode bytes := if bytes = poison then some (1, 1) else some (1, 0)
  pointDecodes bytes := by
    split_ifs
    · rfl
    · rfl
  pointIsIdentity bytes := by
    refine ⟨fun never => absurd never Bool.false_ne_true, fun zero => ?_⟩
    split_ifs at zero
    · exact absurd (Option.some.inj zero) (by decide)
    · exact absurd (Option.some.inj zero) (by decide)
  verifyRange commitment proof _ := by
    split_ifs
    · rfl
    · rfl

/-- A small curve whose three generators agree. -/
def smallGens : Generators (Curve 17) := ⟨(1, 0), (1, 0), (1, 0)⟩

theorem smallGens_prime : smallGens.Prime := ⟨rfl, rfl, rfl, by decide⟩

/-- The members of the pool of the locked output. -/
def lockedMembers : List CoinInfo := (List.range' 48 16).map (numbered lock)

theorem lockedMembers_checked : ∀ coin ∈ lockedMembers, CheckedOutput net coin := by
  intro coin member
  obtain ⟨index, listed, rfl⟩ := List.mem_map.mp member
  obtain ⟨many, -⟩ := paced_locked lock
  rw [length_lockedChain] at many
  rw [List.mem_range'_1] at listed
  have found : (chainLists net (lockedChain lock)).coins[index]? = some (numbered lock index) := by
    rw [numbered, List.getElem?_eq_getElem (by omega), Option.getD_some]
  exact (quiet_locked lock).state.chained.checked _ (List.mem_of_getElem? found)

theorem lockedMember : lockedMembers[13]? = some (lockedCoin lock) := by
  change some (numbered lock 61) = _
  rw [numbered, lockedCoin_created, Option.getD_some]

/-- The first member is the output of a coinbase. -/
theorem firstMember_key : ∃ k, 0 < k ∧ k ≤ 60 ∧ (numbered lock 48).key = payoutKey k := by
  have count : (chainLists net matured).coins.length = 60 := by
    rw [matured, length_coins_idle net_first 0 (by rw [first, List.length_singleton]; omega),
      first_lists]
    rfl
  have found : (chainLists net (lockedChain lock)).coins[48]? =
      some ((chainLists net matured).coins.get ⟨48, by omega⟩) := by
    obtain ⟨more, coins, -⟩ := (quiet_locked lock).coins
    rw [coins, lockedBase, chainLists, StoreLists.append, List.append_assoc,
      List.getElem?_append_left (by rw [count]; decide)]
    exact List.getElem?_eq_getElem _
  rw [numbered, found, Option.getD_some]
  have listed := List.get_mem (chainLists net matured).coins ⟨48, by omega⟩
  obtain ⟨k, below, same⟩ := quiet_matured.state.coins _ listed
  rw [length_matured] at below
  refine ⟨k, Nat.pos_of_ne_zero fun zero => ?_, below, same⟩
  rw [zero] at same
  exact unpaid_matured.1 _ listed same

theorem lockedOwner (poison : Bytes) (key : (lockedCoin lock).key ≠ poison)
    (commitment : (lockedCoin lock).commitment ≠ poison) :
    Owner (curveOf poison) smallGens lockedMembers 13 1 0 1 := by
  refine ⟨lockedCoin lock, lockedMember, ?_, ?_⟩
  · exact (if_neg key).trans (by decide)
  · exact (if_neg commitment).trans (by decide)

theorem lockedMembers_pool :
    (replay net (lockedChain lock)).poolMembers 3 124 = some lockedMembers :=
  locked_pool lock

/-- Where no member has torsion the proof passes. -/
theorem lockedPool_completes :
    SpendCompletes (curveOf []) smallGens lockedMembers 13 1 0 1 0 := by
  have owner := lockedOwner [] (by decide) (by decide)
  refine (pool_spend_completes_iff smallGens_prime (by decide) lockedMembers_pool
    lockedMembers_checked owner 0).mpr fun i coin listed _ => ?_
  obtain ⟨_, _, o, _, accepted, key, commitment⟩ :=
    lockedMembers_checked coin (List.mem_of_getElem? listed)
  obtain ⟨⟨keyWidth, -, width⟩, -⟩ := checkOutput_ok.mp accepted
  have nonempty {bytes : Bytes} (width : bytes.length = 32) :
      PrimePoint (curveOf []) bytes := by
    refine ⟨(1, 0), if_neg ?_, rfl⟩
    rintro rfl
    exact absurd width (by decide)
  rw [key, commitment]
  exact ⟨nonempty keyWidth, nonempty width⟩

/-- **A poisoned pool.** One output with a torsion component in its key keeps the honest owner of
another member from spending. -/
theorem torsion_blocks_owner :
    ¬ ∀ (V : Primitives) (L : Nat) (_ : Fact L.Prime) (enc : PointEncoding V L)
      (gens : Generators (Curve L)), gens.Prime → Config.poolSize < L →
        ∀ chain, Chained V (Verified V) chain → ∀ poolID height members,
          (replay V chain).poolMembers poolID height = some members →
            ∀ l x v r, Owner enc gens members l x v r → ∀ rp,
              SpendCompletes enc gens members l x v r rp := by
  intro complete
  obtain ⟨k, positive, low, key⟩ := firstMember_key
  have apart : (lockedCoin lock).key ≠ payoutKey k := (payoutKey_ne_zero positive (by omega)).symm
  have shownApart : (lockedCoin lock).commitment ≠ payoutKey k := by
    intro same
    have shows : amountOf (lockedCoin lock).commitment = (subsidy - toll).toNat := amountOf_shown _ _
    have early : ∀ k < 61, 0 < k → (2 ^ 56 : Int) ≤ amountOf (payoutKey k) := by decide
    have bounds := subsidy_bounds
    have amount := amounts.1
    have height := early k (by omega) positive
    rw [← same, shows, amount] at height
    omega
  have owner := lockedOwner (payoutKey k) apart shownApart
  have passes := complete net 17 primeOrder (curveOf (payoutKey k)) smallGens smallGens_prime
    (by decide) (lockedChain lock) (quiet_locked lock).state.chained 3 124 lockedMembers
    lockedMembers_pool 13 1 0 1 owner 0
  have clean := (spendCompletes_iff smallGens_prime (by decide) owner lockedMembers_checked rfl
    0).mp passes 0 (numbered lock 48) rfl ⟨1, by decide, by decide⟩
  obtain ⟨⟨P, found, zero⟩, -⟩ := clean
  rw [key] at found
  have torsion : (1, 1) = P := Option.some.inj ((if_pos rfl).symm.trans found)
  rw [← torsion] at zero
  exact absurd (show (1 : ZMod 8) = 0 from zero) (by decide)

end Poisoned

end Obscura
