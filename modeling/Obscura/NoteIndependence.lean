import Obscura.Anchors
import Obscura.ProofNet
import Obscura.Transfer
import Obscura.WalletReceipts

/-! # Two notes of one owner

The nullifier of a note is a hash of the owner's secret and of a `rho` that the sender
chooses. Nothing compares a new leaf with the leaves that are there, so two senders, or
one, can pay two notes with the same `rho` to one address. The first of them that is
spent marks the nullifier of both, and the other one is worthless.
-/

namespace Obscura

open Wire Tx Checked

section Notes

variable {V : Primitives}

/-- What a sender puts into a note besides the address. -/
structure Note where
  amount : UInt64
  rho : UInt64
  blind : UInt64

/-- The note to the owner of a key. -/
def Note.opening (V : Primitives) (nk : UInt64) (note : Note) : Opening :=
  ⟨nfAddress V nk, note.amount, note.rho, note.blind⟩

/-- The leaf of a note of the owner. -/
def Note.leaf (V : Primitives) (nk : UInt64) (note : Note) : Node := (note.opening V nk).leaf V

/-- The nullifier of a note of the owner. -/
def Note.nullifier (V : Primitives) (nk : UInt64) (note : Note) : Node := nfNullifier V nk note.rho

/-- The nullifiers that the blocks reveal. -/
def revealed (blocks : List Block) : List Bytes := blocks.flatMap fun b => noteNullifiers b.txs

/-- Two distinct positions of the tree hold notes of one owner. -/
def TwoNotes (V : Primitives) (chain : List Block) (nk : UInt64) (first second : Note) : Prop :=
  ∃ i j : Nat, i ≠ j ∧ (notesMinted chain)[i]? = some (first.leaf V nk) ∧
    (notesMinted chain)[j]? = some (second.leaf V nk)

/-- Its owner can prove the note under an anchor of the state, and its nullifier is new. -/
structure Spendable (V : Primitives) (L : Ledger) (nk : UInt64) (note : Note) : Prop where
  unseen : inSet L.zkNull (hexstr (note.nullifier V nk)) = false
  anchored : ∃ anchor, inSet L.cmRoots (hexstr anchor) = true ∧
    LeafUnder V anchor (note.leaf V nk)

/-- The blocks reveal the nullifier of the first note, and that of the second one not besides. -/
structure SpendsFirst (V : Primitives) (blocks : List Block) (nk : UInt64) (first second : Note) :
    Prop where
  spent : hexstr (first.nullifier V nk) ∈ revealed blocks
  only : hexstr (second.nullifier V nk) ∈ revealed blocks →
    second.nullifier V nk = first.nullifier V nk

/-! ## Leaves and anchors -/

/-- On every chain each leaf lies under an anchor. -/
theorem Chained.leaf_anchored {chain : List Block} (chained : Chained V (Admitted V) chain)
    {number : Nat} {leaf : Node} (found : (notesMinted chain)[number]? = some leaf) :
    ∃ anchor, inSet (replay V chain).cmRoots (hexstr anchor) = true ∧ LeafUnder V anchor leaf := by
  have listed := (List.getElem?_eq_some_iff.mp found).1
  refine ⟨_, chained.covered.anchored listed, ?_⟩
  have place := Nat.mod_lt number (Nat.two_pow_pos Config.zkDepth)
  obtain ⟨path, length, opened⟩ := Frontier.exists_opens V.wideHash2 Config.zkDepth
    (Frontier.padded zeroHash (epochLeaves Config.zkDepth (notesMinted chain)
      (number / 2 ^ Config.zkDepth))) place
  have leafAt : Frontier.padded zeroHash (epochLeaves Config.zkDepth (notesMinted chain)
      (number / 2 ^ Config.zkDepth)) (number % 2 ^ Config.zkDepth) = leaf := by
    rw [Frontier.padded, epochLeaves, List.getElem?_take_of_lt place, List.getElem?_drop,
      Nat.div_add_mod', found, Option.getD_some]
  rw [leafAt] at opened
  exact ⟨path, length, opened⟩

/-! ## The nullifiers of a chain -/

/-- What a run of blocks has marked. -/
theorem Chained.zkNull_iff {newer base : List Block}
    (chained : Chained V (Admitted V) (newer ++ base)) (key : Bytes) :
    inSet (replay V (newer ++ base)).zkNull key = true ↔
      key ∈ revealed newer ∨ inSet (replay V base).zkNull key = true := by
  induction newer with
  | nil => simp [revealed]
  | cons b newer ih =>
    rw [List.cons_append] at chained ⊢
    obtain ⟨-, cb, applied⟩ := chained.last fun _ _ admitted => admitted
    rw [applied.zkNull, inSet_markAll_iff, ih chained.1, ← or_assoc]
    change _ ↔ key ∈ noteNullifiers b.txs ++ revealed newer ∨ _
    rw [List.mem_append]

theorem notesMinted_append (newer base : List Block) :
    notesMinted (newer ++ base) = notesMinted base ++ notesMinted newer := by
  induction newer with
  | nil => exact (List.append_nil _).symm
  | cons b newer ih =>
    rw [List.cons_append, notesMinted, ih, notesMinted, List.append_assoc]

/-- The pairs that are hashed for the nullifiers of two notes do not collide. -/
def NullifiersApart (V : Primitives) (nk : UInt64) (first second : Note) : Prop :=
  Set.InjOn (fun pair : Node × Node => V.wideHash2 pair.1 pair.2)
    {(feltNode nk, feltNode first.rho), (feltNode nk, feltNode second.rho)}

theorem nullifier_eq_iff {nk : UInt64} {first second : Note}
    (apart : NullifiersApart V nk first second) :
    second.nullifier V nk = first.nullifier V nk ↔ first.rho = second.rho := by
  constructor
  · intro same
    have pairs := apart (Or.inl rfl) (Or.inr rfl) same.symm
    exact feltNode_injective (congrArg Prod.snd pairs)
  · intro same
    rw [Note.nullifier, Note.nullifier, same]

theorem Chained.spendable_iff {newer base : List Block}
    (chained : Chained V (Admitted V) (newer ++ base)) {nk : UInt64} {note : Note} {number : Nat}
    (found : (notesMinted base)[number]? = some (note.leaf V nk))
    (before : Spendable V (replay V base) nk note) :
    Spendable V (replay V (newer ++ base)) nk note ↔
      hexstr (note.nullifier V nk) ∉ revealed newer := by
  have marks := chained.zkNull_iff (hexstr (note.nullifier V nk))
  rw [before.unseen, or_iff_left Bool.false_ne_true] at marks
  constructor
  · intro spendable known
    exact Bool.eq_false_iff.mp spendable.unseen (marks.mpr known)
  · intro unknown
    refine ⟨Bool.eq_false_iff.mpr fun seen => unknown (marks.mp seen), ?_⟩
    have kept : (notesMinted (newer ++ base))[number]? = some (note.leaf V nk) := by
      rw [notesMinted_append, List.getElem?_append_left (List.getElem?_eq_some_iff.mp found).1,
        found]
    exact chained.leaf_anchored kept

/-- **Two notes.** On every chain that holds two notes of one owner whose nullifiers are no
collision, after any further blocks that spend the first one, and the second one at most by the
same nullifier, the second one is spendable as it was if and only if the two were made with
different `rho`. -/
theorem other_note_spendable_iff {newer base : List Block}
    (chained : Chained V (Admitted V) (newer ++ base)) {nk : UInt64} {first second : Note}
    (apart : NullifiersApart V nk first second) (notes : TwoNotes V base nk first second)
    (before : Spendable V (replay V base) nk second)
    (spends : SpendsFirst V newer nk first second) :
    Spendable V (replay V (newer ++ base)) nk second ↔ first.rho ≠ second.rho := by
  obtain ⟨_, _, _, _, found⟩ := notes
  have nullifiers : second.nullifier V nk = first.nullifier V nk ↔ first.rho = second.rho :=
    nullifier_eq_iff apart
  rw [chained.spendable_iff found before, Ne, ← nullifiers, not_iff_not]
  constructor
  · exact spends.only
  · intro same
    rw [same]
    exact spends.spent

end Notes

/-! ## Two notes with one nullifier -/

namespace Twins

open Testnet ProofNet
open Forge hiding net base
open Wallet.Alias (join join_injective join_fresh redirect redirect_injective redirect_fresh plain)

/-- The notes of two senders to the owner of the key 9: they chose the same `rho`. -/
def first : Note := ⟨Forge.toll, 7, 8⟩

/-- A note of another sender with the same `rho`. -/
def second : Note := ⟨5, 7, 6⟩

/-- All of the note but its blinding. -/
def stem (note : Note) : Node :=
  join (join (join (feltNode 9) zeroHash) (feltNode note.amount)) (feltNode note.rho)

/-- The left half of a tree with the two notes. -/
def leftHalf : Node :=
  Frontier.opens join (join (plain 2) (plain 3))
    ((List.range' 1 14).map fun height => (Frontier.blank join zeroHash height, false))

/-- The nullifier, the two leaves and the root of their tree are plain nodes. -/
def hash : Node → Node → Node :=
  redirect (redirect (redirect (redirect join (feltNode 9) (feltNode 7) (plain 1))
    (stem first) (feltNode first.blind) (plain 2)) (stem second) (feltNode second.blind) (plain 3))
    leftHalf (Frontier.blank join zeroHash 15) (plain 4)

theorem hash_injective : Function.Injective2 hash :=
  redirect_injective (redirect_injective (redirect_injective
    (redirect_injective join_injective (join_fresh 1))
    (redirect_fresh (by decide) (join_fresh 2)))
    (redirect_fresh (by decide) (redirect_fresh (by decide) (join_fresh 3))))
    (redirect_fresh (by decide) (redirect_fresh (by decide)
      (redirect_fresh (by decide) (join_fresh 4))))

/-- A network whose proofs are those of the two mints and of the spend of the first note. -/
def net : Primitives :=
  patched Forge.net
    { Forge.net with
      wideHash2 := hash
      unmarshalProof := .ok
      verifyNfMint := fun amount leaf _ _ => leaf == plain 2 && amount == first.amount ||
        leaf == plain 3 && amount == second.amount
      verifyNfSpend := fun amount anchor nf _ _ =>
        anchor == plain 4 && nf == plain 1 && amount == first.amount }

theorem leaves_eq : first.leaf net 9 = plain 2 ∧ second.leaf net 9 = plain 3 ∧
    first.nullifier net 9 = plain 1 := by
  set_option maxRecDepth 30000 in
  decide

theorem zeros (depth : Nat) (low : depth ≤ Config.zkDepth) :
    zeroRoot net depth = zeroRoot Forge.net depth := by
  have all : ∀ depth ≤ 16, zeroRoot net depth = zeroRoot Forge.net depth := by decide
  exact all depth low

/-- The coin of the first block pays for the two mints. -/
def mint : Transaction :=
  let unsigned : Transaction :=
    { inputs := [{ outputRef := payoutKey 1, pseudoCommitment := minted, keyImage := payoutKey 1 }]
      outputs := [{
        oneTimeKey := payoutKey 0
        txPubKey := zeroHash
        commitment := shown (subsidy - toll - first.amount - second.amount) }]
      zkOutputs := [
        { leaf := plain 2, amount := first.amount }, { leaf := plain 3, amount := second.amount }]
      fee := toll }
  let ctx := unsigned.coreHash net
  { unsigned with
    inputs := [{
      outputRef := payoutKey 1
      ownershipProof := payoutKey 1 ++ ctx
      pseudoCommitment := minted
      equalityProof := minted ++ ctx
      keyImage := payoutKey 1 }] }

/-- The first note is spent on the fee. -/
def spend : Transaction where
  zkInputs := [{ nullifier := plain 1, amount := first.amount, anchor := plain 4 }]
  outputs := [{ oneTimeKey := payoutKey 5000, txPubKey := zeroHash, commitment := shown 0 }]
  fee := toll

/-- The chain with the block that mints both notes. -/
def base : List Block := pack net [mint] toll matured :: matured

/-- The block that spends the first note. -/
def spendBlock : Block := pack net [spend] toll base

/-! ### Its cryptography is ideal -/

/-- The path of the first note. -/
def path : List (Node × Bool) :=
  (plain 3, false) :: (List.range' 1 15).map fun height => (Frontier.blank join zeroHash height, false)

/-- The values and numbers that the proofs of the network establish. -/
def ideal : Ideal net where
  value := amountOf
  nullifierOf := id
  ringIndex _ _ _ _ proof _ := (proof.head?.map UInt8.toNat).getD 0
  mintNote _ leaf _ _ := if leaf = plain 2 then first.opening net 9 else second.opening net 9
  spending _ _ _ _ _ := ⟨9, first.amount, first.rho, first.blind, path⟩
  hiddenSpending _ _ _ _ _ _ := default
  sentNote _ _ _ _ _ _ := default
  range := @Ideal.range _ Forge.digestIdeal
  equality := @Ideal.equality _ Forge.digestIdeal
  conservation := @Ideal.conservation _ Forge.digestIdeal
  coinbase := @Ideal.coinbase _ Forge.digestIdeal
  keyImage := @Ideal.keyImage _ Forge.digestIdeal
  anonSpend := by
    intro keys commits pseudo tag proof ctx verified
    cases proof with
    | nil => exact absurd verified Bool.false_ne_true
    | cons place signed =>
      simp only [net, patched, Forge.net, Forge.ringProof, Bool.and_eq_true, beq_iff_eq]
        at verified
      obtain ⟨⟨key, commitment⟩, -⟩ := verified
      obtain ⟨shows, found, same⟩ := Option.map_eq_some_iff.mp commitment
      refine ⟨tag, shows, key, found, ?_, rfl⟩
      rw [amountOf, amountOf, same]
  mint := by
    intro amount leaf bind proof verified
    simp only [net, patched, Bool.or_eq_true, Bool.and_eq_true, beq_iff_eq] at verified
    obtain ⟨firstLeaf, secondLeaf, -⟩ := leaves_eq
    rcases verified with ⟨rfl, rfl⟩ | ⟨rfl, rfl⟩
    · rw [if_pos rfl]
      exact ⟨firstLeaf, rfl⟩
    · rw [if_neg (by decide)]
      exact ⟨secondLeaf, rfl⟩
  spend := by
    intro amount anchor nf bind proof verified
    simp only [net, patched, Bool.and_eq_true, beq_iff_eq] at verified
    obtain ⟨⟨rfl, rfl⟩, rfl⟩ := verified
    refine ⟨⟨rfl, ?_, leaves_eq.2.2⟩, rfl⟩
    set_option maxRecDepth 30000 in
    decide
  confidential := by
    intro nf anchor leafOut fee bind proof verified
    exact absurd verified Bool.false_ne_true

theorem collisionless (hashed : Set (Node × Node)) : Collisionless net hashed := by
  have nonzero (a b : Node) : join a b ≠ zeroHash := by
    unfold Wallet.Alias.join zeroHash
    split_ifs <;> simp [List.replicate_succ]
  refine .of_injective hash_injective ?_ hashed
  exact redirect_fresh (by decide) (redirect_fresh (by decide) (redirect_fresh (by decide)
    (redirect_fresh (by decide) nonzero)))

/-! ### Its chain -/

theorem matured_chained : Chained net (Verified net) matured := by
  refine (chained_patched zeros (Bare.idle fun b member => ?_) quiet_matured.state.chained).1
  obtain rfl := List.mem_singleton.mp member
  exact ⟨_, rfl, rfl⟩

theorem base_chained : Chained net (Verified net) base :=
  chained_passes matured_chained (by decide +kernel)

theorem spend_chained : Chained net (Verified net) ([spendBlock] ++ base) :=
  chained_passes base_chained (by set_option maxRecDepth 30000 in decide)

theorem minted_base : notesMinted base = [plain 2, plain 3] := by
  decide

/-- The root over the two leaves stays an anchor when one of the notes is spent. -/
theorem anchors_kept_spent :
    inSet (replay net ([spendBlock] ++ base)).cmRoots
        (hexstr (epochRoot net (notesMinted ([spendBlock] ++ base)) 0)) = true ∧
      (replay net ([spendBlock] ++ base)).cmRootOrder.Nodup := by
  obtain ⟨anchored, -, distinct, -⟩ := anchors_kept (spend_chained.mono fun _ _ => Verified.admitted)
  refine ⟨anchored 0 ?_, distinct⟩
  rw [notesMinted_append, minted_base]
  exact Nat.succ_pos _

theorem two_notes : TwoNotes net base 9 first second := by
  have leaves := minted_base
  obtain ⟨firstLeaf, secondLeaf, -⟩ := leaves_eq
  refine ⟨0, 1, Nat.zero_ne_one, ?_, ?_⟩
  · rw [leaves, firstLeaf]
    rfl
  · rw [leaves, secondLeaf]
    rfl

theorem second_spendable : Spendable net (replay net base) 9 second := by
  obtain ⟨_, _, _, _, found⟩ := two_notes
  refine ⟨?_, (base_chained.mono fun _ _ => Verified.admitted).leaf_anchored found⟩
  set_option maxRecDepth 30000 in
  decide

theorem spends_first : SpendsFirst net [spendBlock] 9 first second where
  spent := by
    rw [leaves_eq.2.2]
    decide
  only _ := rfl

/-- The first note is spent, and the second one with it. -/
theorem second_lost : ¬ Spendable net (replay net ([spendBlock] ++ base)) 9 second := by
  refine (other_note_spendable_iff (spend_chained.mono fun _ _ => Verified.admitted)
    (collisionless _).apart two_notes second_spendable spends_first).not.mpr ?_
  exact fun differ => differ rfl

/-- **A worthless note.** With ideal cryptography, spending one of two notes of an owner can make
the other one worthless. -/
theorem spend_burns_other :
    ¬ ∀ (V : Primitives), Ideal V → Collisionless V Set.univ →
      ∀ newer base, Chained V (Verified V) (newer ++ base) →
        ∀ nk first second, TwoNotes V base nk first second →
          Spendable V (replay V base) nk second → SpendsFirst V newer nk first second →
            Spendable V (replay V (newer ++ base)) nk second := by
  intro independent
  have spendable := independent net ideal (collisionless _) _ _ spend_chained 9 first second two_notes
    second_spendable spends_first
  obtain ⟨_, _, _, _, found⟩ := two_notes
  exact ((spend_chained.mono fun _ _ => Verified.admitted).spendable_iff found
    second_spendable).mp spendable spends_first.spent

end Twins

end Obscura
