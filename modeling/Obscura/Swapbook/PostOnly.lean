import Mathlib
import Obscura.Swapbook.FillOrKill

/-! # Post-only offers

A post-only offer is refused when some opposing live offer has its rate or a better one. A
reservation on the offer's own terms looks further: at what is left of the opposing offers, at
whose they are, and at what their rest is worth.
-/

namespace Obscura.Swapbook

open Wire

variable (V : Primitives)

/-! ## The ranking of a side -/

theorem pairwise_insertionSort {α : Type} (r : α → α → Prop) [DecidableRel r] {s : α → α → Prop}
    (valid : α → Prop) (yes : ∀ a b, valid a → valid b → r a b → s a b)
    (no : ∀ a b, valid a → valid b → ¬ r a b → s b a)
    (trans : ∀ a b c, valid a → valid b → valid c → s a b → s b c → s a c) (list : List α)
    (all : ∀ a ∈ list, valid a) : (list.insertionSort r).Pairwise s := by
  have insert : ∀ (x : α) (sorted : List α), sorted.Pairwise s → valid x → (∀ a ∈ sorted, valid a) →
      (sorted.orderedInsert r x).Pairwise s := by
    intro x sorted
    induction sorted with
    | nil => intro _ _ _; exact List.pairwise_singleton _ _
    | cons y rest ih =>
      intro pairs new old
      obtain ⟨first, pairs⟩ := List.pairwise_cons.mp pairs
      have middle := old y List.mem_cons_self
      rw [List.orderedInsert_cons]
      split_ifs with before
      · refine List.pairwise_cons.mpr ⟨fun z member => ?_, List.pairwise_cons.mpr ⟨first, pairs⟩⟩
        rcases List.mem_cons.mp member with rfl | member
        · exact yes _ _ new middle before
        · have last := old z (List.mem_cons_of_mem _ member)
          exact trans _ _ _ new middle last (yes _ _ new middle before) (first z member)
      · refine List.pairwise_cons.mpr ⟨fun z member => ?_, ih pairs new fun a member =>
          old a (List.mem_cons_of_mem _ member)⟩
        rcases (List.mem_orderedInsert r).mp member with rfl | member
        · exact no _ _ new middle before
        · exact first z member
  induction list with
  | nil => exact List.Pairwise.nil
  | cons x rest ih =>
    rw [List.insertionSort_cons]
    have others : ∀ a ∈ rest, valid a := fun a member => all a (List.mem_cons_of_mem _ member)
    refine insert x _ (ih others) (all x List.mem_cons_self) fun a member => ?_
    exact others a ((List.mem_insertionSort r).mp member)

/-- The opposing offer has the rate that `o` asks, or a better one. -/
def Meets (o opp : Offer) : Prop :=
  cmpRate opp.giveAmount opp.getAmount o.getAmount o.giveAmount ≠ .lt

instance (o opp : Offer) : Decidable (Meets o opp) :=
  inferInstanceAs (Decidable (_ ≠ _))

theorem meets_iff (o opp : Offer) : Meets o opp ↔
    o.getAmount.toNat * opp.getAmount.toNat ≤ opp.giveAmount.toNat * o.giveAmount.toNat := by
  rw [Meets, cmpRate_eq, Ne, Nat.compare_eq_lt, not_lt]

/-- The better rate comes first. -/
theorem side_ranked (b : Book) (now : Int) (giveAsset getAsset : Bytes) (o : Offer) :
    (b.matchingOffersLocked V now giveAsset getAsset).1.Pairwise fun first later =>
      Meets o later → Meets o first := by
  have nonzero : ∀ opp ∈ (b.matchingOffersLocked V now giveAsset getAsset).1,
      0 < opp.getAmount.toNat := by
    intro opp member
    simp only [Book.matchingOffersLocked, List.mem_insertionSort, List.mem_filter,
      Bool.and_eq_true, decide_eq_true_eq] at member
    exact Nat.pos_of_ne_zero fun zero => member.2.2 (UInt64.toNat_inj.mp zero)
  have ranked : (b.matchingOffersLocked V now giveAsset getAsset).1.Pairwise fun first later =>
      later.giveAmount.toNat * first.getAmount.toNat ≤
        first.giveAmount.toNat * later.getAmount.toNat := by
    refine pairwise_insertionSort _ _ (fun first later _ _ before => ?_)
      (fun first later _ _ before => ?_)
      (fun first middle later _ positive _ better better' => ?_) _ fun opp member =>
        nonzero opp ((List.mem_insertionSort _).mpr member)
    · rw [Book.ranksBefore, cmpRate_eq] at before
      refine not_lt.mp fun less => before ?_
      rw [Nat.compare_eq_gt.mpr less]
    · rw [Book.ranksBefore, cmpRate_eq] at before
      refine not_lt.mp fun less => before fun ranks => ?_
      rw [Nat.compare_eq_lt.mpr less] at ranks
      cases ranks
    · refine Nat.le_of_mul_le_mul_right ?_ positive
      calc later.giveAmount.toNat * first.getAmount.toNat * middle.getAmount.toNat
          = later.giveAmount.toNat * middle.getAmount.toNat * first.getAmount.toNat := by ring
        _ ≤ middle.giveAmount.toNat * later.getAmount.toNat * first.getAmount.toNat :=
            Nat.mul_le_mul_right _ better'
        _ = middle.giveAmount.toNat * first.getAmount.toNat * later.getAmount.toNat := by ring
        _ ≤ first.giveAmount.toNat * middle.getAmount.toNat * later.getAmount.toNat :=
            Nat.mul_le_mul_right _ better
        _ = first.giveAmount.toNat * later.getAmount.toNat * middle.getAmount.toNat := by ring
  refine ranked.imp_of_mem fun {first later} _ among better met => ?_
  have positive := nonzero later among
  rw [meets_iff] at met ⊢
  refine Nat.le_of_mul_le_mul_right ?_ positive
  calc o.getAmount.toNat * first.getAmount.toNat * later.getAmount.toNat
      = o.getAmount.toNat * later.getAmount.toNat * first.getAmount.toNat := by ring
    _ ≤ later.giveAmount.toNat * o.giveAmount.toNat * first.getAmount.toNat :=
        Nat.mul_le_mul_right _ met
    _ = later.giveAmount.toNat * first.getAmount.toNat * o.giveAmount.toNat := by ring
    _ ≤ first.giveAmount.toNat * later.getAmount.toNat * o.giveAmount.toNat :=
        Nat.mul_le_mul_right _ better
    _ = first.giveAmount.toNat * o.giveAmount.toNat * later.getAmount.toNat := by ring

/-! ## What a reservation finds -/

/-- The terms on which a reservation by the maker of `o` takes what `o` would trade. -/
def termsOf (o : Offer) : Book.ReserveOpts where
  takerPub := o.maker
  minFillRateNum := o.getAmount
  minFillRateDen := o.giveAmount

/-- There is something in an opposing offer for the maker of `o`: it has the rate or a better one,
it is another maker's, and what is left of it is worth something. -/
def Takeable (fills : GoMap Fill) (o opp : Offer) : Prop :=
  let f := (fillForLocked fills (opp.id V) opp).1
  Meets o opp ∧ opp.maker ≠ o.maker ∧ f.status ≠ .filled ∧ f.status ≠ .cancelled ∧
    mulDivFloor (if o.giveAmount < f.remGet then o.giveAmount else f.remGet) opp.giveAmount
      opp.getAmount ≠ 0

instance (fills : GoMap Fill) (o opp : Offer) : Decidable (Takeable V fills o opp) :=
  inferInstanceAs (Decidable (_ ∧ _))

theorem mulDivFloor_zero {give get : UInt64} (nonzero : get ≠ 0) : mulDivFloor 0 give get = 0 := by
  refine UInt64.toNat_inj.mp ?_
  rw [mulDivFloor_eq nonzero] <;> simp

theorem fillForLocked_seeded (fills : GoMap Fill) {o other : Offer}
    (apart : o.id V ≠ other.id V) :
    (fillForLocked (fillForLocked fills (o.id V) o).2 (other.id V) other).1 =
      (fillForLocked fills (other.id V) other).1 := by
  rw [fillForLocked.eq_def fills (o.id V) o]
  cases fills[o.id V]? with
  | none => exact fillForLocked_insert V fills o.fresh apart
  | some f => rfl

/-- What a walk has collected stays. -/
theorem reserveWalk_prefix (opts : Book.ReserveOpts) (side : List Offer) (walk : Book.Walk) :
    walk.res.length ≤ (Book.reserveWalk V opts side walk).res.length := by
  induction side generalizing walk with
  | nil => exact le_rfl
  | cons o side ih =>
    rw [Book.reserveWalk]
    generalize fillForLocked walk.fills (o.id V) o = answer
    obtain ⟨f, fills⟩ := answer
    dsimp only
    generalize (if walk.remaining < f.remGet then walk.remaining else f.remGet) = pay
    split_ifs
    · exact le_rfl
    · exact ih walk
    · exact le_rfl
    · exact ih { walk with fills }
    · exact ih { walk with fills }
    · exact ih { walk with fills }
    · refine le_trans ?_ (ih _)
      simp [Book.Walk.take]

/-- A walk on the terms of `o` collects something exactly if there is something in some offer. -/
theorem reserveWalk_finds (o : Offer) (maker : o.maker.length = 32) (give : o.giveAmount ≠ 0)
    (side : List Offer) (formed : ∀ opp ∈ side, opp.getAmount ≠ 0)
    (ranked : side.Pairwise fun first later => Meets o later → Meets o first)
    (distinct : (side.map fun opp => opp.id V).Nodup) (fills : GoMap Fill) (walk : Book.Walk)
    (agree : ∀ opp ∈ side, (fillForLocked walk.fills (opp.id V) opp).1 =
      (fillForLocked fills (opp.id V) opp).1)
    (whole : walk.remaining = o.giveAmount) (nothing : walk.res = []) :
    (Book.reserveWalk V (termsOf o) side walk).res ≠ [] ↔
      ∃ opp ∈ side, Takeable V fills o opp := by
  induction side generalizing walk with
  | nil => simp [Book.reserveWalk, nothing]
  | cons opp side ih =>
    obtain ⟨first, ranked⟩ := List.pairwise_cons.mp ranked
    obtain ⟨apart, distinct⟩ := List.nodup_cons.mp distinct
    have others : ∀ opp ∈ side, opp.getAmount ≠ 0 := fun opp member =>
      formed opp (List.mem_cons_of_mem _ member)
    have same := agree opp List.mem_cons_self
    have agree : ∀ other ∈ side, (fillForLocked walk.fills (other.id V) other).1 =
        (fillForLocked fills (other.id V) other).1 := fun other member =>
      agree other (List.mem_cons_of_mem _ member)
    rw [List.exists_mem_cons_iff, Book.reserveWalk]
    have more : ¬ walk.remaining = 0 := by
      rw [whole]
      exact give
    have self : (termsOf o).takerPub.length = 32 ∧ opp.maker.length = 32 ∧
        opp.maker = (termsOf o).takerPub ↔ opp.maker = o.maker :=
      ⟨fun own => own.2.2, fun own => ⟨maker, own ▸ maker, own⟩⟩
    have below : (termsOf o).minFillRateDen ≠ 0 ∧ cmpRate opp.giveAmount opp.getAmount
        (termsOf o).minFillRateNum (termsOf o).minFillRateDen = .lt ↔ ¬ Meets o opp :=
      ⟨fun less met => met less.2, fun less => ⟨give, not_not.mp less⟩⟩
    rw [if_neg more]
    by_cases own : opp.maker = o.maker
    · rw [if_pos (self.mpr own), ih others ranked distinct walk agree whole nothing]
      exact (or_iff_right fun takeable => takeable.2.1 own).symm
    rw [if_neg (self.not.mpr own)]
    by_cases met : Meets o opp
    · rw [if_neg (below.not.mpr (not_not.mpr met))]
      have seeded : ∀ other ∈ side,
          (fillForLocked (fillForLocked walk.fills (opp.id V) opp).2 (other.id V) other).1 =
            (fillForLocked fills (other.id V) other).1 := by
        intro other member
        have different : opp.id V ≠ other.id V := fun equal =>
          apart (List.mem_map.mpr ⟨other, member, equal.symm⟩)
        rw [fillForLocked_seeded V walk.fills different, agree other member]
      have next := ih others ranked distinct
        { walk with fills := (fillForLocked walk.fills (opp.id V) opp).2 } seeded whole nothing
      have passed : ¬ Takeable V fills o opp →
          ((Book.reserveWalk V (termsOf o) side
              { walk with fills := (fillForLocked walk.fills (opp.id V) opp).2 }).res ≠ [] ↔
            Takeable V fills o opp ∨ ∃ other ∈ side, Takeable V fills o other) :=
        fun dry => next.trans (or_iff_right dry).symm
      unfold Takeable at passed ⊢
      dsimp only at passed ⊢
      rw [← same] at passed ⊢
      rw [← whole] at passed ⊢
      generalize (fillForLocked walk.fills (opp.id V) opp).1 = f at passed ⊢
      by_cases exhausted : f.status = .filled ∨ f.status = .cancelled ∨ f.remGet = 0
      · rw [if_pos exhausted]
        refine passed fun takeable => ?_
        obtain ⟨-, -, unfilled, live, worth⟩ := takeable
        rcases exhausted with filled | cancelled | empty
        · exact unfilled filled
        · exact live cancelled
        · refine worth ?_
          rw [empty, if_neg (UInt64.not_lt.mpr UInt64.zero_le)]
          exact mulDivFloor_zero (formed opp List.mem_cons_self)
      rw [if_neg exhausted]
      generalize (if walk.remaining < f.remGet then walk.remaining else f.remGet) = pay
        at passed ⊢
      by_cases unpaid : pay = 0
      · rw [if_pos unpaid]
        refine passed fun takeable => takeable.2.2.2.2 ?_
        rw [unpaid]
        exact mulDivFloor_zero (formed opp List.mem_cons_self)
      rw [if_neg unpaid]
      by_cases worthless : mulDivFloor pay opp.giveAmount opp.getAmount = 0
      · rw [if_pos worthless]
        exact passed fun takeable => takeable.2.2.2.2 worthless
      rw [if_neg worthless]
      refine iff_of_true (fun empty => ?_) (Or.inl ?_)
      · have kept := reserveWalk_prefix V (termsOf o) side
          (Book.Walk.take { walk with fills := (fillForLocked walk.fills (opp.id V) opp).2 }
            (opp.id V) opp f pay (mulDivFloor pay opp.giveAmount opp.getAmount))
        rw [empty] at kept
        simp [Book.Walk.take] at kept
      · rw [not_or, not_or] at exhausted
        exact ⟨met, own, exhausted.1, exhausted.2.1, worthless⟩
    · rw [if_pos (below.mpr met)]
      refine iff_of_false (not_not.mpr nothing) ?_
      rintro (takeable | ⟨other, member, takeable⟩)
      · exact met takeable.1
      · exact met (first other member takeable.1)

/-! ## Post-only offers -/

/-- What a verified offer has passed. -/
structure Offer.Passed (o : Offer) : Prop where
  maker : o.maker.length = 32
  giveAmount : o.giveAmount ≠ 0
  apart : o.giveAsset ≠ o.getAsset
  giveAsset : validAsset o.giveAsset = true
  getAsset : validAsset o.getAsset = true

theorem Offer.passed_of_verify {V : Primitives} {o : Offer} {now : Int}
    (verified : o.verify V now = true) : o.Passed := by
  rw [Offer.verify] at verified
  split_ifs at verified with lengths amounts assets
  simp only [not_or, ne_eq, not_not] at lengths amounts
  simp only [Bool.not_eq_true', not_or, Bool.not_eq_false] at assets
  exact ⟨lengths.1, amounts.1, amounts.2.2, assets.1, assets.2⟩

theorem minOrderSizeFor_eq (asset : Bytes) : minOrderSizeFor asset = 1 := by
  rw [minOrderSizeFor, minOrderSize]
  simp only [List.lookup]
  split
  · rfl
  split
  · rfl
  · rfl

theorem crossesLocked_iff (b : Book) (now : Int) (o : Offer) :
    (b.pruneLocked now).crossesLocked o = true ↔
      ∃ opp ∈ (b.matchingOffersLocked V now o.giveAsset o.getAsset).1, Meets o opp := by
  simp only [Book.crossesLocked, Book.matchingOffersLocked, List.any_eq_true,
    List.mem_insertionSort, List.mem_filter, List.mem_map, Bool.and_eq_true, decide_eq_true_eq,
    Meets]
  constructor
  · rintro ⟨entry, listed, opposing, met⟩
    exact ⟨entry.2, ⟨⟨entry, listed, rfl⟩, opposing⟩, met⟩
  · rintro ⟨opp, ⟨⟨entry, listed, rfl⟩, opposing⟩, met⟩
    exact ⟨entry, listed, opposing, met⟩

/-- Neither the book nor the maker of an offer has reached its cap. -/
def HasRoom (b : Book) (now : Int) (o : Offer) : Prop :=
  (b.pruneLocked now).offers.size < maxBookSize ∧
    (b.pruneLocked now).countMakerLocked o.maker < maxOffersPerMaker

instance (b : Book) (now : Int) (o : Offer) : Decidable (HasRoom b now o) :=
  inferInstanceAs (Decidable (_ ∧ _))

/-- A valid new post-only offer is refused as crossing exactly if there is room for it and it
crosses: the caps are looked at before. -/
theorem addPostOnly_refused_iff {V : Primitives} {b : Book} {o : Offer} {verifyNow now : Int}
    (valid : o.verify V verifyNow = true)
    (new : (b.pruneLocked now).offers[o.id V]? = none) :
    (b.add V verifyNow now o true).1 =
        .error "swapbook: post-only offer would cross top-of-book" ↔
      HasRoom b now o ∧ (b.pruneLocked now).crossesLocked o = true := by
  rw [Book.add, if_neg (by simp [valid]), Book.addLocked, HasRoom]
  simp only [new, Option.isSome_none, Bool.false_eq_true, if_false, Bool.true_and]
  split_ifs with full capped crosses
  · exact iff_of_false (by simp) fun both => absurd both.1.1 (not_lt.mpr full)
  · exact iff_of_false (by simp) fun both => absurd both.1.2 (not_lt.mpr capped)
  · exact iff_of_true rfl ⟨⟨not_le.mp full, not_le.mp capped⟩, crosses⟩
  · exact iff_of_false (by rintro ⟨⟩) fun both => crosses both.2

/-- In every reachable book a valid new post-only offer is refused as crossing exactly where a
reservation on its terms finds something, if and only if: in a book with room for it, where an
opposing live offer has its rate or a better one, there is something for its maker in one; in
another book there is nothing for its maker in any. -/
theorem postOnly_exact_iff (V : Primitives) (calls : List Call) (answers : List Answer) (d : Desk)
    (ran : Desk.run V {} calls = some (answers, d)) (o : Offer) (verifyNow now now' : Int)
    (later : now ≤ now') (valid : o.verify V verifyNow = true)
    (new : (d.book.pruneLocked now').offers[o.id V]? = none) :
    ((d.book.add V verifyNow now' o true).1 =
          .error "swapbook: post-only offer would cross top-of-book" ↔
        ∃ taken, (d.book.reserve V now now' o.giveAsset o.getAsset o.giveAmount (termsOf o)).1 =
          .ok taken) ↔
      (HasRoom d.book now' o →
        (∃ opp ∈ (d.book.matchingOffersLocked V now' o.giveAsset o.getAsset).1, Meets o opp) →
          ∃ opp ∈ (d.book.matchingOffersLocked V now' o.giveAsset o.getAsset).1,
            Takeable V d.book.fills o opp) ∧
      (¬ HasRoom d.book now' o →
        ∀ opp ∈ (d.book.matchingOffersLocked V now' o.giveAsset o.getAsset).1,
          ¬ Takeable V d.book.fills o opp) := by
  have sound : d.Sound V fun _ => True :=
    Desk.Sound.run Desk.sound_empty (fun _ _ _ _ => trivial) ran
  have passed := Offer.passed_of_verify valid
  have refused := (addPostOnly_refused_iff valid new).trans
    (and_congr_right fun _ => crossesLocked_iff V d.book now' o)
  have found : (∃ taken, (d.book.reserve V now now' o.giveAsset o.getAsset o.giveAmount
        (termsOf o)).1 = .ok taken) ↔
      ∃ opp ∈ (d.book.matchingOffersLocked V now' o.giveAsset o.getAsset).1,
        Takeable V d.book.fills o opp := by
    have once := matchingOffersLocked_later V d.book later o.giveAsset o.getAsset
    have finds := reserveWalk_finds V o passed.maker passed.giveAmount
      (d.book.matchingOffersLocked V now' o.giveAsset o.getAsset).1
      (fun opp member => (sound.listed.side now' _ _ opp member).2.getAmount)
      (side_ranked V d.book now' _ _ o)
      (side_distinct (fun id o found => (sound.listed id o found).2.2) now' _ _) d.book.fills
      { fills := d.book.fills, remaining := o.giveAmount } (fun _ _ => rfl) rfl rfl
    have accepted : Book.refuseReserve o.giveAsset o.getAsset o.giveAmount = none := by
      have least : ¬ o.giveAmount < 1 := fun less => passed.giveAmount
        (UInt64.toNat_inj.mp (Nat.lt_one_iff.mp (UInt64.lt_iff_toNat_lt.mp less)))
      rw [Book.refuseReserve, minOrderSizeFor_eq, if_neg least]
      simp [passed.giveAmount, passed.giveAsset, passed.getAsset, passed.apart]
    rw [← finds, Book.reserve, accepted, Book.walkFor, once]
    have fills : (d.book.matchingOffersLocked V now' o.giveAsset o.getAsset).2.fills =
        d.book.fills := rfl
    generalize d.book.matchingOffersLocked V now' o.giveAsset o.getAsset = answer at fills ⊢
    obtain ⟨side, b⟩ := answer
    dsimp only at fills ⊢
    rw [fills]
    by_cases empty : (Book.reserveWalk V (termsOf o) side
        { fills := d.book.fills, remaining := o.giveAmount }).res = []
    · simp [empty]
    · rw [if_neg empty, if_neg fun killed => Bool.false_ne_true killed.1]
      exact iff_of_true ⟨_, rfl⟩ empty
  rw [refused, found]
  constructor
  · intro same
    exact ⟨fun room crosses => same.mp ⟨room, crosses⟩,
      fun full opp member takeable => full (same.mpr ⟨opp, member, takeable⟩).1⟩
  · rintro ⟨takes, nothing⟩
    refine ⟨fun crosses => takes crosses.1 crosses.2, ?_⟩
    rintro ⟨opp, member, takeable⟩
    refine ⟨?_, opp, member, takeable.1⟩
    by_contra full
    exact nothing full opp member takeable

/-- Seven XNO for ten OBX, of another maker. -/
def toyBid : Offer where
  maker := List.replicate 32 2
  giveAsset := ascii "XNO"
  getAsset := ascii "OBX"
  giveAmount := 7
  getAmount := 10
  expiry := 1000
  nonce := 0
  sig := List.replicate 64 1

/-- While something of the opposing offer is left, the two notions agree. -/
theorem toyBid_crosses :
    ∃ answers d, Desk.run toyPrimitives {} (toyCalls.map Call.keep) = some (answers, d) ∧
      ((d.book.add toyPrimitives 12 12 toyBid true).1 =
            .error "swapbook: post-only offer would cross top-of-book" ↔
          ∃ taken, (d.book.reserve toyPrimitives 12 12 toyBid.giveAsset toyBid.getAsset
            toyBid.giveAmount (termsOf toyBid)).1 = .ok taken) := by
  have admitted : ((Desk.run toyPrimitives {} (toyCalls.map Call.keep)).map fun answer =>
      decide ((answer.2.book.pruneLocked 12).offers[toyBid.id toyPrimitives]? = none ∧
        HasRoom answer.2.book 12 toyBid ∧
        ∃ opp ∈ (answer.2.book.matchingOffersLocked toyPrimitives 12 toyBid.giveAsset
          toyBid.getAsset).1, Takeable toyPrimitives answer.2.book.fills toyBid opp)) =
      some true := by
    decide +kernel
  obtain ⟨⟨answers, d⟩, ran, admitted⟩ := Option.map_eq_some_iff.mp admitted
  obtain ⟨new, room, some⟩ := of_decide_eq_true admitted
  refine ⟨answers, d, ran, (postOnly_exact_iff toyPrimitives (toyCalls.map Call.keep) answers d ran
    toyBid 12 12 12 le_rfl (by decide +kernel) new).mpr ⟨fun _ _ => some, fun full => ?_⟩⟩
  exact absurd room full

/-- An offer posted and reserved in full. -/
def soldOut : List Call :=
  [.keep (.add 10 10 toyOffer false), .keep (.reserve 11 11 (ascii "XNO") (ascii "OBX") 7 {})]

/-- An offer of which everything is reserved still keeps post-only offers out. -/
theorem toyBid_blocked : ¬ ∀ (V : Primitives) (calls : List Call) (answers : List Answer)
    (d : Desk), Desk.run V {} calls = some (answers, d) →
    ∀ (o : Offer) (verifyNow now now' : Int), now ≤ now' →
    o.verify V verifyNow = true → (d.book.pruneLocked now').offers[o.id V]? = none →
    (d.book.pruneLocked now').offers.size < maxBookSize →
    (d.book.pruneLocked now').countMakerLocked o.maker < maxOffersPerMaker →
      ((d.book.add V verifyNow now' o true).1 =
          .error "swapbook: post-only offer would cross top-of-book" ↔
        ∃ taken, (d.book.reserve V now now' o.giveAsset o.getAsset o.giveAmount (termsOf o)).1 =
          .ok taken) := by
  intro promise
  have answered : ((Desk.run toyPrimitives {} soldOut).map fun answer =>
      decide ((answer.2.book.pruneLocked 12).offers[toyBid.id toyPrimitives]? = none ∧
        (answer.2.book.pruneLocked 12).offers.size < maxBookSize ∧
        (answer.2.book.pruneLocked 12).countMakerLocked toyBid.maker < maxOffersPerMaker ∧
        (answer.2.book.pruneLocked 12).crossesLocked toyBid = true ∧
        (answer.2.book.reserve toyPrimitives 12 12 toyBid.giveAsset toyBid.getAsset
          toyBid.giveAmount (termsOf toyBid)).1.isOk = false)) = some true := by
    decide +kernel
  obtain ⟨⟨answers, d⟩, ran, answered⟩ := Option.map_eq_some_iff.mp answered
  obtain ⟨new, room, few, crosses, dry⟩ := of_decide_eq_true answered
  have valid : toyBid.verify toyPrimitives 12 = true := by decide +kernel
  have refused := (addPostOnly_refused_iff valid new).mpr ⟨⟨room, few⟩, crosses⟩
  obtain ⟨taken, found⟩ := (promise toyPrimitives soldOut answers d ran toyBid 12 12 12 le_rfl valid
    new room few).mp refused
  dsimp only at dry
  rw [found] at dry
  exact nomatch dry

end Obscura.Swapbook
