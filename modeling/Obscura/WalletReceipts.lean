import Obscura.Books
import Obscura.Forge
import Obscura.Wallet

/-! # What a wallet credits

The coins that a scan finds in a verified block, against the amounts in the proofs of
their leaves. A wallet compares leaves, and a leaf holds its amount as a
field element, so that a decrypted amount of the modulus or more passes for the
amount it reduces to.
-/

namespace Obscura

open Wire Tx Checked

namespace Wallet

/-! ## Field elements -/

theorem goldilocks_word : (UInt64.ofNat Config.goldilocks).toNat = Config.goldilocks := by
  decide

theorem newFelt_toNat (x : UInt64) : (newFelt x).toNat =
    if Config.goldilocks ≤ x.toNat then x.toNat - Config.goldilocks else x.toNat := by
  rw [newFelt]
  split_ifs with large
  · rw [UInt64.toNat_sub_of_le _ _ (UInt64.le_iff_toNat_le.mpr (goldilocks_word ▸ large)),
      goldilocks_word]
  · rfl

theorem newFelt_eq_iff (x : UInt64) :
    (newFelt x).toNat = x.toNat ↔ x.toNat < Config.goldilocks := by
  have positive : 0 < Config.goldilocks := by decide
  rw [newFelt_toNat]
  split_ifs with large
  · omega
  · omega

theorem wU64_ofBigEndian {limb : Bytes} (length : limb.length = 8) :
    wU64 (UInt64.ofNat (ofBigEndian limb)) = limb := by
  have bound := ofBigEndian_lt limb
  rw [length] at bound
  rw [wU64, putU64, UInt64.toNat_ofNat_of_lt' bound, bigEndian_ofBigEndian length]

theorem wU64_feltFromBytes {bytes : Bytes} (length : 8 ≤ bytes.length)
    (canonical : ofBigEndian (bytes.take 8) < Config.goldilocks) :
    wU64 (feltFromBytes bytes) = bytes.take 8 := by
  have width : (bytes.take 8).length = 8 := by rw [List.length_take]; omega
  have bound := ofBigEndian_lt (bytes.take 8)
  rw [width] at bound
  rw [feltFromBytes, newFelt, if_neg, wU64_ofBigEndian width]
  rw [UInt64.toNat_ofNat_of_lt' bound]
  exact Nat.not_le.mpr canonical

theorem canonical_length {bytes : Bytes} (parsed : (parseNode bytes).isSome = true) :
    bytes.length = 32 := by
  unfold parseNode at parsed
  split_ifs at parsed with canonical
  · exact canonical.1
  · exact absurd parsed (by decide)

/-- A canonical node is read and written back. -/
theorem nodeFromBytes_canonical {bytes : Bytes} (parsed : (parseNode bytes).isSome = true) :
    nodeFromBytes bytes = bytes := by
  obtain ⟨node, parsed⟩ := Option.isSome_iff_exists.mp parsed
  rw [parseNode] at parsed
  split_ifs at parsed with canonical
  obtain ⟨length, limbs⟩ := canonical
  have limb : ∀ i ∈ List.range 4, (if (i + 1) * 8 ≤ bytes.length then
      wU64 (feltFromBytes (bytes.drop (i * 8))) else List.replicate 8 0) =
      (bytes.drop (i * 8)).take 8 := by
    intro i member
    have below := List.mem_range.mp member
    rw [if_pos (by omega), wU64_feltFromBytes (by rw [List.length_drop]; omega) (limbs i member)]
  rw [nodeFromBytes, List.flatMap_congr limb]
  have last : (bytes.drop 24).take 8 = bytes.drop 24 :=
    List.take_of_length_le (by rw [List.length_drop, length])
  have third : (bytes.drop 16).take 8 ++ bytes.drop 24 = bytes.drop 16 := by
    have parts := List.take_append_drop 8 (bytes.drop 16)
    rwa [List.drop_drop] at parts
  have second : (bytes.drop 8).take 8 ++ bytes.drop 16 = bytes.drop 8 := by
    have parts := List.take_append_drop 8 (bytes.drop 8)
    rwa [List.drop_drop] at parts
  calc (List.range 4).flatMap (fun i => (bytes.drop (i * 8)).take 8)
      = bytes.take 8 ++ ((bytes.drop 8).take 8 ++ ((bytes.drop 16).take 8 ++
          (bytes.drop 24).take 8)) := by
        simp [List.range_succ]
    _ = bytes := by rw [last, third, second, List.take_append_drop]

section Receipts

variable {Point Scalar : Type} [DecidableEq Point] (V : Primitives) (C : Curve Point Scalar)
variable (keys : List (StealthKeys Point Scalar))

/-! ## What the scan reads -/

/-- The note that a key's owner rebuilds from a shared secret and an amount. -/
def rebuilt (k : StealthKeys Point Scalar) (so : StealthOutput Point) (amount : UInt64) :
    Opening where
  pk := nodeFromBytes k.nfPk
  amount := newFelt amount
  rho := (zkSecretsFromShared V (k.sharedSecret C so)).1
  blind := (zkSecretsFromShared V (k.sharedSecret C so)).2

/-- The note that a wallet builds again from an output and an amount. -/
def rebuiltNote (k : StealthKeys Point Scalar) (so : StealthOutput Point) (amount : UInt64) :
    Node :=
  (rebuilt V C k so amount).leaf V

/-- A confidential spend whose new leaf is the note of an amount that one of the keys owns, and
whose encrypted amount is that amount plus the modulus of the field. -/
def Aliased (s : CZKSpend) : Prop :=
  s.key.length = 32 ∧ s.txPubKey.length = 32 ∧ ∃ k so amount,
    owner C keys s.key s.txPubKey s.viewTag = some (k, so) ∧
    unmaskAmount V (k.sharedSecret C so) s.encAmount = some amount ∧
    Config.goldilocks ≤ amount.toNat ∧ s.leafOut = rebuiltNote V C k so amount

section Reads

variable {V} {C} {keys}

theorem mintedCoin_some {o : ZKOutput} {coin : ZKCoin}
    (found : mintedCoin V C keys o = some coin) : coin.amount = o.amount ∧ coin.leaf = o.leaf := by
  unfold mintedCoin at found
  split_ifs at found
  obtain ⟨⟨k, so⟩, -, found⟩ := Option.bind_eq_some_iff.mp found
  dsimp only at found
  split_ifs at found
  cases found
  exact ⟨rfl, rfl⟩

/-- What a coin of a confidential spend shows. -/
theorem sentCoin_some {s : CZKSpend} {coin : ZKCoin} (found : sentCoin V C keys s = some coin) :
    coin.leaf = s.leafOut ∧ s.key.length = 32 ∧ s.txPubKey.length = 32 ∧ ∃ k so,
      owner C keys s.key s.txPubKey s.viewTag = some (k, so) ∧
      unmaskAmount V (k.sharedSecret C so) s.encAmount = some coin.amount ∧
      nodeFromBytes s.leafOut = rebuiltNote V C k so coin.amount := by
  unfold sentCoin at found
  split_ifs at found with ill
  obtain ⟨key, txPubKey, -⟩ :
      s.key.length = 32 ∧ s.txPubKey.length = 32 ∧ s.leafOut.length = 32 := by
    simpa only [not_or, ne_eq, not_not] using ill
  obtain ⟨⟨k, so⟩, owned, found⟩ := Option.bind_eq_some_iff.mp found
  dsimp only at found
  obtain ⟨amount, decrypted, found⟩ := Option.bind_eq_some_iff.mp found
  split_ifs at found with differs
  cases found
  exact ⟨rfl, key, txPubKey, k, so, owned, decrypted, (not_not.mp differs).symm⟩

/-- When a confidential spend gives a coin. -/
theorem sentCoin_of_note {s : CZKSpend} (key : s.key.length = 32)
    (txPubKey : s.txPubKey.length = 32) (leafOut : s.leafOut.length = 32)
    {k : StealthKeys Point Scalar} {so : StealthOutput Point} {amount : UInt64}
    (owned : owner C keys s.key s.txPubKey s.viewTag = some (k, so))
    (decrypted : unmaskAmount V (k.sharedSecret C so) s.encAmount = some amount)
    (note : nodeFromBytes s.leafOut = rebuiltNote V C k so amount) :
    ∃ coin, sentCoin V C keys s = some coin ∧ coin.amount = amount ∧ coin.leaf = s.leafOut := by
  unfold sentCoin
  rw [if_neg (by simp [key, txPubKey, leafOut]), owned]
  simp only [Option.bind_eq_bind, Option.bind_some, decrypted]
  change nodeFromBytes s.leafOut = nfNoteFromPk V (nodeFromBytes k.nfPk) (newFelt amount)
    (zkSecretsFromShared V (k.sharedSecret C so)).1 (zkSecretsFromShared V (k.sharedSecret C so)).2
    at note
  rw [if_neg (not_not.mpr note.symm)]
  exact ⟨_, rfl, rfl, rfl⟩

end Reads

/-! ## What consensus binds -/

section Bound

variable {V} {L : Ledger} {t : Transaction} {now : Int} {b : Block}

/-- The leaves of an accepted transaction are canonical and proved. -/
structure NotesProved (V : Primitives) (t : Transaction) : Prop where
  mints : ∀ o ∈ t.zkOutputs, (parseNode o.leaf).isSome = true ∧ ZKOutputProof V (t.coreHash V) o
  spends : ∀ s ∈ t.czkSpends, (parseNode s.leafOut).isSome = true ∧ CZKProof V (t.coreHash V) s

/-- The notes of an accepted transaction are proved. -/
theorem validateTx_notes {height : Nat} {seen next : Seen} {primes : List Bytes}
    (accepted : validateTxLocked V L false t height seen = .ok (primes, next)) :
    NotesProved V t := by
  unfold validateTxLocked at accepted
  simp only [bind_ok, reject_ok, exists_const] at accepted
  obtain ⟨-, accepted⟩ := accepted
  cases pq : hasPQ t with
  | true =>
    simp only [pq, ↓reduceIte, bind_ok] at accepted
    obtain ⟨_, accepted, -⟩ := accepted
    unfold validatePQTxLocked at accepted
    simp only [bind_ok, reject_ok, exists_const, not_or, ne_eq, not_not] at accepted
    obtain ⟨-, ⟨-, -, -, -, -, -, -, noMints, noSpends, -⟩, -⟩ := accepted
    constructor
    · rw [noMints]
      exact List.forall_mem_nil _
    · rw [noSpends]
      exact List.forall_mem_nil _
  | false =>
    simp only [pq, Bool.false_eq_true, ↓reduceIte, bind_ok] at accepted
    obtain ⟨_, -, legs⟩ := accepted
    have legs := validateLegs_accepted legs
    constructor
    · intro o member
      obtain ⟨parsed, proved⟩ := legs.zkOutputs o member
      exact ⟨parsed, proved rfl⟩
    · intro s member
      obtain ⟨-, -, parsed, proved⟩ := legs.czkSpends s member
      exact ⟨parsed, proved rfl⟩

/-- So are those of an accepted block. -/
theorem validateBlock_notes (accepted : validateBlockLocked V (fun _ => false) now L b = .ok ()) :
    ∀ t ∈ b.txs, NotesProved V t := by
  unfold validateBlockLocked at accepted
  simp only [bind_ok, reject_ok, orReject_ok, exists_const, Prod.exists] at accepted
  obtain ⟨_, -, _, -, cb, listOk, _, _, -, _, legsOk, _, tallyRun, -⟩ := accepted
  obtain ⟨-, txs, split⟩ := checkTxList_ok listOk
  have coinbase := checkCoinbaseLegs_ok.mp legsOk
  rw [split, List.tail_cons] at tallyRun
  rw [split]
  intro t member
  rcases List.mem_cons.mp member with rfl | member
  · constructor
    · rw [coinbase.zkOutputs]
      exact List.forall_mem_nil _
    · rw [coinbase.czkSpends]
      exact List.forall_mem_nil _
  · refine foldlM_forall _ ?_ tallyRun t member
    intro tally t next step
    unfold tallyTx at step
    simp only [bind_ok, mapError_ok, Prod.exists] at step
    obtain ⟨primes, seen, valid, -⟩ := step
    exact validateTx_notes valid

theorem NotesProved.mint (I : Ideal V) (proved : NotesProved V t) {o : ZKOutput}
    (member : o ∈ t.zkOutputs) :
    ∃ note, zkMinted I (t.coreHash V) o = some note ∧ note.leaf V = o.leaf ∧
      note.amount = o.amount := by
  obtain ⟨-, proof, decoded, verified⟩ := proved.mints o member
  obtain ⟨leaf, amount⟩ := I.mint verified
  exact ⟨_, by rw [zkMinted, decoded], leaf, amount⟩

theorem NotesProved.sent (I : Ideal V) (proved : NotesProved V t) {s : CZKSpend}
    (member : s ∈ t.czkSpends) :
    ∃ note, czkSent I (t.coreHash V) s = some note ∧ note.leaf V = s.leafOut := by
  obtain ⟨-, proof, decoded, verified⟩ := proved.spends s member
  obtain ⟨-, leaf, -⟩ := I.confidential verified
  exact ⟨_, by rw [czkSent, decoded], leaf⟩

end Bound

/-! ## The amounts credited -/

/-- The coins of a block that a scan finds, each with the amount in the proof of its leaf. -/
def provedCoins (I : Ideal V) (b : Block) : List (ZKCoin × UInt64) :=
  b.txs.flatMap fun t =>
    (t.zkOutputs.filterMap fun o => (mintedCoin V C keys o).bind fun coin =>
        (zkMinted I (t.coreHash V) o).map fun note => (coin, note.amount)) ++
      t.czkSpends.filterMap fun s => (sentCoin V C keys s).bind fun coin =>
        (czkSent I (t.coreHash V) s).map fun note => (coin, note.amount)

/-- No two of the pairs of nodes collide that are hashed for the note in the proof of a
confidential spend and for the note that one of the keys' owners rebuilds. -/
def NotesApart (I : Ideal V) (ctx : Hash) (s : CZKSpend) : Prop :=
  ∀ k so amount note, owner C keys s.key s.txPubKey s.viewTag = some (k, so) →
    unmaskAmount V (k.sharedSecret C so) s.encAmount = some amount → czkSent I ctx s = some note →
      Set.InjOn (fun pair : Node × Node => V.wideHash2 pair.1 pair.2)
        {pair | pair ∈ (rebuilt V C k so amount).pairs V ∨ pair ∈ note.pairs V}

section Credited

variable {V} {C} {keys} {t : Transaction}

theorem sentCoin_sound_iff {I : Ideal V} (proved : NotesProved V t) {s : CZKSpend}
    (member : s ∈ t.czkSpends) (apart : NotesApart V C keys I (t.coreHash V) s) {note : Opening}
    (sent : czkSent I (t.coreHash V) s = some note) :
    (∀ coin, sentCoin V C keys s = some coin → coin.amount = note.amount) ↔
      ¬ Aliased V C keys s := by
  have parsed := (proved.spends s member).1
  have canonical := nodeFromBytes_canonical parsed
  obtain ⟨other, found, leaf⟩ := proved.sent I member
  obtain rfl : note = other := Option.some.inj (sent.symm.trans found)
  -- A rebuilt note with the new leaf has the amount of the proved one, as a field element.
  have amounts : ∀ k so amount, owner C keys s.key s.txPubKey s.viewTag = some (k, so) →
      unmaskAmount V (k.sharedSecret C so) s.encAmount = some amount →
      s.leafOut = rebuiltNote V C k so amount → (newFelt amount).toNat = note.amount.toNat := by
    intro k so amount owned decrypted same
    have equal := Opening.leaf_injOn (apart k so amount note owned decrypted sent)
      (fun _ => Or.inl) (fun _ => Or.inr) (same.symm.trans leaf.symm)
    exact congrArg UInt64.toNat equal.2.1
  constructor
  · rintro sound ⟨key, txPubKey, k, so, amount, owned, decrypted, large, same⟩
    obtain ⟨coin, credited, value, -⟩ := sentCoin_of_note key txPubKey
      (canonical_length parsed) owned decrypted (canonical.trans same)
    have reduced := amounts k so amount owned decrypted same
    rw [← sound coin credited, value] at reduced
    exact absurd ((newFelt_eq_iff amount).mp reduced) (Nat.not_lt.mpr large)
  · intro plain coin credited
    obtain ⟨-, key, txPubKey, k, so, owned, decrypted, same⟩ := sentCoin_some credited
    rw [canonical] at same
    have small : coin.amount.toNat < Config.goldilocks := Nat.lt_of_not_le fun large =>
      plain ⟨key, txPubKey, k, so, coin.amount, owned, decrypted, large, same⟩
    refine UInt64.toNat_inj.mp ?_
    rw [← amounts k so coin.amount owned decrypted same, (newFelt_eq_iff coin.amount).mpr small]

theorem provedCoins_fst (I : Ideal V) {b : Block} (proved : ∀ t ∈ b.txs, NotesProved V t) :
    (provedCoins V C keys I b).map Prod.fst = scanZKCoins V C keys b := by
  rw [provedCoins, scanZKCoins, List.map_flatMap]
  refine List.flatMap_congr fun t inBlock => ?_
  rw [List.map_append, List.map_filterMap, List.map_filterMap]
  congr 1
  · refine List.filterMap_congr fun o member => ?_
    obtain ⟨note, found, -⟩ := (proved t inBlock).mint I member
    rw [found]
    cases mintedCoin V C keys o <;> rfl
  · refine List.filterMap_congr fun s member => ?_
    obtain ⟨note, found, -⟩ := (proved t inBlock).sent I member
    rw [found]
    cases sentCoin V C keys s <;> rfl

end Credited

/-- **Receipts.** With sound proofs, and unless hashes of the two notes collide, every coin that
a wallet finds in a verified block is credited with the amount in the proof of its leaf exactly
when no confidential spend of the block encrypts its amount plus the modulus of the field for one
of the wallet's keys. -/
theorem receipts_sound_iff (I : Ideal V) {now : Int} {L : Ledger} {b : Block}
    (accepted : validateBlockLocked V (fun _ => false) now L b = .ok ())
    (apart : ∀ t ∈ b.txs, ∀ s ∈ t.czkSpends, NotesApart V C keys I (t.coreHash V) s) :
    (provedCoins V C keys I b).map Prod.fst = scanZKCoins V C keys b ∧
      ((∀ entry ∈ provedCoins V C keys I b, entry.1.amount = entry.2) ↔
        ∀ t ∈ b.txs, ∀ s ∈ t.czkSpends, ¬ Aliased V C keys s) := by
  have proved := validateBlock_notes accepted
  refine ⟨provedCoins_fst I proved, ?_⟩
  constructor
  · intro sound t inBlock s member
    obtain ⟨note, sent, -⟩ := (proved t inBlock).sent I member
    refine (sentCoin_sound_iff (proved t inBlock) member (apart t inBlock s member) sent).mp ?_
    intro coin credited
    refine sound (coin, note.amount) (List.mem_flatMap.mpr ⟨t, inBlock,
      List.mem_append_right _ (List.mem_filterMap.mpr ⟨s, member, ?_⟩)⟩)
    rw [credited, sent]
    rfl
  · rintro plain ⟨coin, amount⟩ found
    obtain ⟨t, inBlock, found⟩ := List.mem_flatMap.mp found
    rcases List.mem_append.mp found with minted | sent
    · obtain ⟨o, member, minted⟩ := List.mem_filterMap.mp minted
      obtain ⟨found, credited, minted⟩ := Option.bind_eq_some_iff.mp minted
      obtain ⟨note, proof, same⟩ := Option.map_eq_some_iff.mp minted
      obtain ⟨_, known, -, declared⟩ := (proved t inBlock).mint I member
      obtain rfl := Option.some.inj (known.symm.trans proof)
      cases same
      exact (mintedCoin_some credited).1.trans declared.symm
    · obtain ⟨s, member, sent⟩ := List.mem_filterMap.mp sent
      obtain ⟨found, credited, sent⟩ := Option.bind_eq_some_iff.mp sent
      obtain ⟨note, proof, same⟩ := Option.map_eq_some_iff.mp sent
      cases same
      exact (sentCoin_sound_iff (proved t inBlock) member (apart t inBlock s member) proof).mpr
        (plain t inBlock s member) coin credited

end Receipts

/-! ## A note credited with the modulus -/

namespace Alias

open Testnet Forge

/-- An injective pairing that escapes the shorter node, so that it grows by at most twice that. -/
def join (left right : Node) : Node :=
  if left = right then 2 :: left
  else if left.length ≤ right.length then
    1 :: ((left.flatMap fun byte => [1, byte]) ++ 0 :: right)
  else
    4 :: ((right.flatMap fun byte => [1, byte]) ++ 0 :: left)

theorem join_injective : Function.Injective2 join := by
  intro left left' right right' same
  unfold join at same
  split_ifs at same
  · simp_all
  · simp at same
  · simp at same
  · simp at same
  · exact escape_injective (List.cons.inj same).2
  · simp at same
  · simp at same
  · simp at same
  · exact (escape_injective (List.cons.inj same).2).symm

/-- A function with its value at one pair replaced. -/
def redirect (hash : Node → Node → Node) (left right value : Node) (a b : Node) : Node :=
  if a = left ∧ b = right then value else hash a b

theorem redirect_fresh {hash : Node → Node → Node} {left right value other : Node}
    (differs : value ≠ other) (fresh : ∀ a b, hash a b ≠ other) (a b : Node) :
    redirect hash left right value a b ≠ other := by
  rw [redirect]
  split_ifs
  · exact differs
  · exact fresh a b

theorem redirect_injective {hash : Node → Node → Node} (injective : Function.Injective2 hash)
    {left right value : Node} (fresh : ∀ a b, hash a b ≠ value) :
    Function.Injective2 (redirect hash left right value) := by
  intro a a' b b' same
  rw [redirect, redirect] at same
  split_ifs at same with first second second
  · exact ⟨first.1.trans second.1.symm, first.2.trans second.2.symm⟩
  · exact absurd same.symm (fresh a' b')
  · exact absurd same (fresh a b)
  · exact injective same

/-- A canonical node of 32 bytes that `join` does not return. -/
def plain (index : UInt8) : Node := 3 :: (List.replicate 30 0 ++ [index])

theorem join_fresh (index : UInt8) (a b : Node) : join a b ≠ plain index := by
  unfold join plain
  split_ifs <;> simp

/-- The fee of the spend. -/
def toll : UInt64 := 10_000_000

/-- The spent note, of the amount 5 and the fee. -/
def leafIn : Node :=
  join (join (join (join (feltNode 9) zeroHash) (feltNode (5 + toll))) (feltNode 7)) (feltNode 8)

/-- The node below the root on the path of the spent note. -/
def below : Node := Frontier.opens join leafIn (List.replicate 15 ([], false))

/-- The new note, of the amount 5. -/
def inner : Node := join (join zeroHash (feltNode 5)) (feltNode 0)

/-- The nullifier, the new leaf and the root of the tree of the spent note are plain nodes. -/
def hash : Node → Node → Node :=
  redirect (redirect (redirect join (feltNode 9) (feltNode 7) (plain 1)) inner (feltNode 0)
    (plain 2)) below [] (plain 3)

theorem hash_injective : Function.Injective2 hash :=
  redirect_injective (redirect_injective (redirect_injective join_injective (join_fresh 1))
    (redirect_fresh (by decide) (join_fresh 2)))
    (redirect_fresh (by decide) (redirect_fresh (by decide) (join_fresh 3)))

theorem hash_nonzero (a b : Node) : hash a b ≠ zeroHash := by
  have nonzero (a b : Node) : join a b ≠ zeroHash := by
    unfold join zeroHash
    split_ifs <;> simp [List.replicate_succ]
  exact redirect_fresh (by decide) (redirect_fresh (by decide)
    (redirect_fresh (by decide) nonzero)) a b

/-- A network whose one confidential proof is that of the spend. -/
def net : Primitives :=
  { primitives digest with
    wideHash2 := hash
    unmarshalProof := .ok
    verifyCnfSpend := fun nf anchor leafOut fee _ _ =>
      nf == plain 1 && anchor == plain 3 && leafOut == plain 2 && fee == toll }

/-- Proofs that hold exactly of what they are shown. -/
def ideal : Ideal net where
  value := amountOf
  nullifierOf := id
  ringIndex _ _ _ _ _ _ := 0
  mintNote _ _ _ _ := default
  spending _ _ _ _ _ := default
  hiddenSpending _ _ _ _ _ _ := ⟨9, 5 + toll, 7, 8, List.replicate 16 ([], false)⟩
  sentNote _ _ _ _ _ _ := ⟨zeroHash, 5, 0, 0⟩
  range := @Ideal.range _ Forge.digestIdeal
  equality := @Ideal.equality _ Forge.digestIdeal
  conservation := @Ideal.conservation _ Forge.digestIdeal
  coinbase := @Ideal.coinbase _ Forge.digestIdeal
  keyImage := @Ideal.keyImage _ Forge.digestIdeal
  anonSpend := @Ideal.anonSpend _ Forge.digestIdeal
  mint := by
    intro amount leaf bind proof verified
    simp [net, primitives] at verified
  spend := by
    intro amount anchor nf bind proof verified
    simp [net, primitives] at verified
  confidential := by
    intro nf anchor leafOut fee bind proof verified
    simp only [net, Bool.and_eq_true, beq_iff_eq] at verified
    obtain ⟨⟨⟨rfl, rfl⟩, rfl⟩, rfl⟩ := verified
    refine ⟨⟨rfl, ?_, by decide⟩, ?_, by decide⟩
    · set_option maxRecDepth 30000 in
      decide
    · set_option maxRecDepth 30000 in
      decide

theorem collisionless (hashed : Set (Node × Node)) : Collisionless net hashed :=
  .of_injective hash_injective hash_nonzero hashed

/-- The note is sent to the wallet with the encrypted amount `goldilocks + 5`. -/
def spend : CZKSpend where
  nullifier := plain 1
  anchor := plain 3
  leafOut := plain 2
  fee := toll
  key := List.replicate 32 1
  txPubKey := List.replicate 32 2
  viewTag := 0
  encAmount := (wU64 (UInt64.ofNat (Config.goldilocks + 5))).reverse

/-- A transaction with one spend. -/
def send : Transaction where
  fee := toll
  czkSpends := [spend]

/-- The state after genesis, with the root of the spent note among the anchors. -/
def ledger : Ledger :=
  { replay net [] with cmRoots := (∅ : GoMap Bool).insert (hexstr (plain 3)) true }

/-- The block that carries it. -/
def block : Block :=
  let txs := [payout 1 0 (reward ledger + toll), send]
  let por := List.replicate Config.porChallenges ⟨0, genesisCoinbase.serialize, []⟩
  { header :=
      { height := 1
        prevHash := (ledger.tip?.map fun tip => tip.id net).getD zeroHash
        timestamp := genesisTimestamp + 120
        difficulty := 64
        merkleRoot := merkleRoot net txs
        accValue := [1]
        accSize := ledger.acc.size + (primesOf net txs).length
        nullRoot := ledger.nullAcc.rootAfter net (blockTagsFromTxs net txs)
        pqAccRoot := ledger.pqAcc.rootAfter net []
        cmRoot := ledger.cmTree.rootAfter net (cmLeavesFromTxs txs)
        numTxs := txs.length
        porRoot := porRootOf net por
        stateRoot := ledger.stateRoot net }
    txs, por }

theorem block_accepted :
    validateBlockLocked net (fun _ => false) (genesisTimestamp + 120) ledger block = .ok () := by
  have verdict : (validateBlockLocked net (fun _ => false) (genesisTimestamp + 120) ledger
      block).toOption = some () := by
    set_option maxRecDepth 30000 in
    decide
  revert verdict
  generalize validateBlockLocked net (fun _ => false) (genesisTimestamp + 120) ledger block = result
  intro verdict
  cases result with
  | error text => exact nomatch verdict
  | ok _ => rfl

end Alias

open Alias Testnet in
/-- The new wallet and the accepted block. -/
theorem receipts_sound_alias :
    (provedCoins net plainCurve [newWallet.keys] ideal block).map Prod.fst =
        scanZKCoins net plainCurve [newWallet.keys] block ∧
      ((∀ entry ∈ provedCoins net plainCurve [newWallet.keys] ideal block,
          entry.1.amount = entry.2) ↔
        ∀ t ∈ block.txs, ∀ s ∈ t.czkSpends, ¬ Aliased net plainCurve [newWallet.keys] s) :=
  receipts_sound_iff net plainCurve [newWallet.keys] ideal block_accepted
    fun _ _ _ _ _ _ _ _ _ _ _ => (Alias.collisionless _).apart

open Alias Testnet in
/-- The wallet credits a note of 5 with the modulus and 5. -/
theorem aliased_receipt : ¬ ∀ (V : Primitives) (I : Ideal V), Collisionless V Set.univ →
    ∀ (now : Int) (L : Ledger) (b : Block) (C : Curve Bytes Unit)
      (keys : List (StealthKeys Bytes Unit)),
      validateBlockLocked V (fun _ => false) now L b = .ok () →
        ∀ entry ∈ provedCoins V C keys I b, entry.1.amount = entry.2 := by
  intro sound
  have credited := sound net ideal (Alias.collisionless _) _ ledger block plainCurve [newWallet.keys]
    block_accepted
  have found : ∃ entry ∈ provedCoins net plainCurve [newWallet.keys] ideal block,
      entry.1.amount.toNat = Config.goldilocks + 5 ∧ entry.2 = 5 := by
    set_option maxRecDepth 30000 in
    decide
  obtain ⟨entry, member, amount, bound⟩ := found
  rw [credited entry member, bound] at amount
  exact absurd amount (by decide)

end Wallet

end Obscura
