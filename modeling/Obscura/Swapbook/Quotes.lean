import Mathlib
import Obscura.Swapbook.NoOversell

/-! # Quotes and reservations

A quote walks the ranked side of the book over the amounts that the makers signed; a reservation
walks the same side over what is left of them. The two agree wherever each offer that the size
reaches still has its share left, and drift apart after a reservation that has not come back.
-/

namespace Obscura.Swapbook

open Wire

variable (V : Primitives)

/-- Along the side, each offer that the size reaches is open for the share that falls to it, unless
the share is worth nothing. -/
def Covered (fills : GoMap Fill) : List Offer → UInt64 → Prop
  | [], _ => True
  | o :: side, left =>
    let share := if left < o.getAmount then left else o.getAmount
    if mulDivFloor share o.giveAmount o.getAmount = 0 then
      Covered fills side left
    else
      let f := (fillForLocked fills (o.id V) o).1
      f.status ≠ .filled ∧ f.status ≠ .cancelled ∧ share ≤ f.remGet ∧
        Covered fills side (left - share)

instance Covered.decidable (fills : GoMap Fill) :
    (side : List Offer) → (left : UInt64) → Decidable (Covered V fills side left)
  | [], _ => .isTrue trivial
  | o :: side, left =>
    let share := if left < o.getAmount then left else o.getAmount
    if worthless : mulDivFloor share o.giveAmount o.getAmount = 0 then
      have := Covered.decidable fills side left
      decidable_of_iff (Covered V fills side left) (by rw [Covered, if_pos worthless])
    else
      have := Covered.decidable fills side (left - share)
      decidable_of_iff _ (by rw [Covered, if_neg worthless])

/-- What a reservation comes to: the sums of what is paid and received over its rungs, their number
and whether they fill the whole size. -/
def reserved (size : UInt64) :
    Except Book.ReserveError (List Reservation × UInt64 × UInt64) → UInt64 × UInt64 × Nat × Bool
  | .ok (res, _, _) =>
    let paid := (res.map Reservation.pay).sum
    (paid, (res.map Reservation.recv).sum, res.length, paid == size)
  | .error _ => (0, 0, 0, false)

/-- The two walks have added up the same. -/
structure Agree (q : Book.Quoting) (walk : Book.Walk) : Prop where
  remaining : q.remaining = walk.remaining
  filled : q.filled = (walk.res.map Reservation.pay).sum
  getOut : q.getOut = (walk.res.map Reservation.recv).sum
  offersUsed : q.offersUsed = walk.res.length

/-! ## A rung -/

theorem mulDivFloor_zero_mono {less share give get : UInt64} (nonzero : get ≠ 0)
    (within : share ≤ get) (part : less ≤ share) (worthless : mulDivFloor share give get = 0) :
    mulDivFloor less give get = 0 := by
  have positive : 0 < get.toNat :=
    Nat.pos_of_ne_zero fun zero => nonzero (UInt64.toNat_inj.mp zero)
  have price : ∀ amount : UInt64, amount ≤ get →
      (mulDivFloor amount give get).toNat = amount.toNat * give.toNat / get.toNat := by
    intro amount small
    refine mulDivFloor_eq nonzero (lt_of_le_of_lt ?_ give.toNat_lt)
    refine Nat.div_le_of_le_mul ?_
    exact Nat.mul_le_mul_right _ (UInt64.le_iff_toNat_le.mp small)
  have whole := congrArg UInt64.toNat worthless
  rw [price share within] at whole
  refine UInt64.toNat_inj.mp ?_
  rw [price less (UInt64.le_trans part within)]
  refine Nat.eq_zero_of_le_zero (le_of_le_of_eq ?_ whole)
  exact Nat.div_le_div_right (Nat.mul_le_mul_right _ (UInt64.le_iff_toNat_le.mp part))

theorem fillForLocked_insert (fills : GoMap Fill) {id : Hash} (f : Fill) {o : Offer}
    (apart : id ≠ o.id V) : (fillForLocked (fills.insert id f) (o.id V) o).1 =
      (fillForLocked fills (o.id V) o).1 := by
  rw [fillForLocked, fillForLocked, OrdMap.lookup_insert, if_neg apart]
  cases fills[o.id V]? <;> rfl

theorem covered_insert {fills : GoMap Fill} {id : Hash} (f : Fill) {side : List Offer}
    (apart : id ∉ side.map fun o => o.id V) (left : UInt64) :
    Covered V (fills.insert id f) side left ↔ Covered V fills side left := by
  induction side generalizing left with
  | nil => exact Iff.rfl
  | cons o side ih =>
    rw [List.map_cons, List.mem_cons, not_or] at apart
    rw [Covered, Covered, fillForLocked_insert V fills f apart.1]
    dsimp only
    generalize (if left < o.getAmount then left else o.getAmount) = share
    split_ifs with worthless
    · exact ih apart.2 left
    · rw [ih apart.2]

theorem covered_fillFor {fills : GoMap Fill} (o : Offer) {side : List Offer}
    (apart : o.id V ∉ side.map fun o => o.id V) (left : UInt64) :
    Covered V (fillForLocked fills (o.id V) o).2 side left ↔ Covered V fills side left := by
  rw [fillForLocked]
  cases fills[o.id V]? with
  | none => exact covered_insert V _ apart left
  | some f => exact Iff.rfl

variable {V} in
theorem Sound.within {known : Offer → Prop} {fills : GoMap Fill} {held : Multiset Reservation}
    (sound : Sound V known fills held) {id : Hash} {f : Fill} (found : fills[id]? = some f) :
    f.remGet ≤ f.get := by
  have paid := sound.paid id f found
  rw [UInt64.le_iff_toNat_le]
  omega

theorem Agree.take {q : Book.Quoting} {walk : Book.Walk} (agree : Agree q walk) (id : Hash)
    (o : Offer) (f : Fill) {share got : UInt64} (fits : got ≤ f.remGve) :
    Agree { remaining := walk.remaining - share, filled := q.filled + share
            getOut := q.getOut + got, offersUsed := q.offersUsed + 1 }
      (walk.take id o f share got) where
  remaining := rfl
  filled := by simp [Book.Walk.take, agree.filled]
  getOut := by
    have unclamped : ¬ f.remGve < got := UInt64.not_lt.mpr fits
    simp [Book.Walk.take, agree.getOut, unclamped]
  offersUsed := by simp [Book.Walk.take, agree.offersUsed]

/-- Over a covered side the two walks add up the same. -/
theorem walks_agree {V : Primitives} {known : Offer → Prop}
    (collisionFree : ∀ o o', known o → known o' → o.id V = o'.id V → o.core = o'.core)
    {held : Multiset Reservation} (side : List Offer)
    (listed : ∀ o ∈ side, known o ∧ o.WellFormed)
    (distinct : (side.map fun o => o.id V).Nodup) (q : Book.Quoting) (walk : Book.Walk)
    (sound : Sound V known walk.fills (walk.res + held))
    (covered : Covered V walk.fills side q.remaining) (agree : Agree q walk) :
    Agree (Book.quoteWalk side q) (Book.reserveWalk V {} side walk) := by
  induction side generalizing q walk with
  | nil => exact agree
  | cons o side ih =>
    obtain ⟨own, formed⟩ := listed o List.mem_cons_self
    have rest : ∀ o ∈ side, known o ∧ o.WellFormed :=
      fun o member => listed o (List.mem_cons_of_mem _ member)
    obtain ⟨apart, distinct⟩ := List.nodup_cons.mp distinct
    obtain ⟨seeded, found, get, give⟩ := sound.fillFor collisionFree own formed
    have kept := @covered_fillFor V walk.fills o side apart
    rw [Book.quoteWalk, Book.reserveWalk, agree.remaining]
    by_cases done : walk.remaining = 0
    · rw [if_pos done, if_pos done]
      exact agree
    have unfiltered : ¬ (([] : Bytes).length = 32 ∧ o.maker.length = 32 ∧ o.maker = []) := by simp
    have uncapped : ¬ ((0 : UInt64) ≠ 0 ∧ cmpRate o.giveAmount o.getAmount 0 0 = .lt) := by simp
    rw [if_neg done, if_neg done, if_neg unfiltered, if_neg uncapped]
    rw [Covered, agree.remaining] at covered
    generalize fillForLocked walk.fills (o.id V) o = answer
      at seeded found get give kept covered ⊢
    obtain ⟨f, fills⟩ := answer
    dsimp only at seeded found get give kept covered ⊢
    have within : f.remGet ≤ o.getAmount := get ▸ seeded.within found
    have skipped : Agree q { walk with fills } := ⟨agree.1, agree.2, agree.3, agree.4⟩
    -- The size reaches the offer, so that its share is not nothing.
    have some : (if walk.remaining < o.getAmount then walk.remaining else o.getAmount) ≠ 0 := by
      split_ifs
      · exact done
      · exact formed.getAmount
    have bounded := smaller_le_right walk.remaining o.getAmount
    rw [if_neg some]
    generalize share_eq : (if walk.remaining < o.getAmount then walk.remaining else o.getAmount) =
      share at some bounded covered ⊢
    by_cases worthless : mulDivFloor share o.giveAmount o.getAmount = 0
    · rw [if_pos worthless] at covered
      rw [if_pos worthless]
      have next := ih rest distinct q { walk with fills } seeded
        (by rw [agree.remaining]; exact (kept _).mpr covered) skipped
      -- What is left of the offer is a part of the share, so that it is worth nothing either.
      by_cases exhausted : f.status = .filled ∨ f.status = .cancelled ∨ f.remGet = 0
      · rw [if_pos exhausted]
        exact next
      rw [if_neg exhausted]
      have part : (if walk.remaining < f.remGet then walk.remaining else f.remGet) ≤ share := by
        rw [← share_eq]
        split_ifs with less short short
        · exact UInt64.le_refl _
        · exact UInt64.le_of_lt (UInt64.lt_of_lt_of_le less within)
        · exact UInt64.not_lt.mp less
        · exact within
      have nothing := mulDivFloor_zero_mono formed.getAmount bounded part worthless
      generalize (if walk.remaining < f.remGet then walk.remaining else f.remGet) = pay
        at nothing ⊢
      rw [nothing, if_pos rfl, ite_self]
      exact next
    · rw [if_neg worthless] at covered
      rw [if_neg worthless]
      obtain ⟨unfilled, live, enough, covered⟩ := covered
      have fresh : ¬ (f.status = .filled ∨ f.status = .cancelled ∨ f.remGet = 0) := by
        rintro (filled | cancelled | empty)
        · exact unfilled filled
        · exact live cancelled
        · rw [empty] at enough
          exact some (UInt64.le_zero_iff.mp enough)
      have whole : (if walk.remaining < f.remGet then walk.remaining else f.remGet) = share := by
        rw [← share_eq] at enough ⊢
        by_cases short : walk.remaining < o.getAmount
        · rw [if_pos short] at enough ⊢
          split_ifs with less
          · rfl
          · exact UInt64.le_antisymm (UInt64.not_lt.mp less) enough
        · rw [if_neg short] at enough ⊢
          have full : f.remGet = o.getAmount := UInt64.le_antisymm within enough
          rw [full, if_neg short]
      rw [if_neg fresh, whole, if_neg some, if_neg worthless]
      have fits : mulDivFloor share o.giveAmount o.getAmount ≤ f.remGve := by
        rw [← get, ← give]
        exact (seeded.take found enough o.maker .partly).1
      refine ih rest distinct _ _ (Sound.walk_take seeded found get give enough) ?_
        (skipped.take _ o f fits)
      rw [Book.Walk.take]
      exact (covered_insert V _ apart _).mpr ((kept _).mpr (agree.remaining ▸ covered))

/-! ## The side of a book -/

theorem pruneLocked_later (b : Book) {now now' : Int} (later : now ≤ now') :
    (b.pruneLocked now).pruneLocked now' = b.pruneLocked now' := by
  have same : (b.pruneLocked now).offers.filter (fun _ o => !decide (o.expiry ≤ now')) =
      b.offers.filter fun _ o => !decide (o.expiry ≤ now') := by
    refine Std.ExtTreeMap.ext_getElem? fun {id} => ?_
    rw [Book.pruneLocked, Std.ExtTreeMap.getElem?_filter', Std.ExtTreeMap.getElem?_filter',
      Std.ExtTreeMap.getElem?_filter', Option.filter_filter]
    refine congrArg (fun keep => Option.filter keep b.offers[id]?) (funext fun o => ?_)
    by_cases expired : o.expiry ≤ now'
    · simp [expired]
    · simp [expired, not_le.mpr (later.trans_lt (not_le.mp expired))]
  rw [Book.pruneLocked, same]
  rfl

theorem matchingOffersLocked_later (b : Book) {now now' : Int} (later : now ≤ now')
    (giveAsset getAsset : Bytes) :
    (b.pruneLocked now).matchingOffersLocked V now' giveAsset getAsset =
      b.matchingOffersLocked V now' giveAsset getAsset := by
  rw [Book.matchingOffersLocked, Book.matchingOffersLocked, pruneLocked_later _ later]

/-! ## The quote of a reachable book -/

/-- In every reachable book a quote is what a reservation of the same size takes, provided that each
offer that the size reaches has its share left. -/
theorem quote_matches_reserve (V : Primitives) (ops : List Op)
    (collisionFree : ∀ op ∈ ops, ∀ op' ∈ ops, ∀ o o', op.posts = some o → op'.posts = some o' →
      o.id V = o'.id V → o.core = o'.core)
    (log : Log) (ran : Log.run V {} ops = some log) (now now' : Int) (later : now ≤ now')
    (giveAsset getAsset : Bytes) (size : UInt64) (least : minOrderSizeFor giveAsset ≤ size)
    (covered : Covered V log.book.fills
      (log.book.matchingOffersLocked V now' giveAsset getAsset).1 size) :
    (log.book.quote V now' giveAsset getAsset size).1 =
      reserved size (log.book.reserve V now now' giveAsset getAsset size {}).1 := by
  have sound := Log.sound_of_run collisionFree ran
  have collisions := Op.collisionFree_posts collisionFree
  rw [Book.quote, Book.reserve, Book.refuseReserve]
  by_cases invalid :
      size = 0 ∨ !validAsset giveAsset ∨ !validAsset getAsset ∨ giveAsset = getAsset
  · rw [if_pos invalid, if_pos invalid]
    rfl
  rw [if_neg invalid, if_neg invalid, if_neg (UInt64.not_lt.mpr least)]
  have distinct := side_distinct (fun id o found => (sound.offers id o found).2.2) now' giveAsset
    getAsset
  have listed := sound.side now now' giveAsset getAsset
  have fills : (log.book.matchingOffersLocked V now' giveAsset getAsset).2.fills =
      log.book.fills := rfl
  have once := matchingOffersLocked_later V log.book later giveAsset getAsset
  rw [Book.walkFor, once]
  rw [once] at listed
  generalize log.book.matchingOffersLocked V now' giveAsset getAsset = answer
    at covered distinct listed fills ⊢
  obtain ⟨side, book⟩ := answer
  dsimp only at covered distinct listed fills ⊢
  rw [fills]
  have agree := walks_agree collisions side listed distinct { remaining := size }
    { fills := log.book.fills, remaining := size } (by simpa using sound.fills) covered
    ⟨rfl, rfl, rfl, rfl⟩
  generalize Book.quoteWalk side _ = q at agree ⊢
  generalize Book.reserveWalk V {} side _ = walk at agree ⊢
  rw [agree.filled, agree.getOut, agree.offersUsed]
  by_cases empty : walk.res = []
  · have short : ((0 : UInt64) == size) = false := by
      rw [beq_eq_false_iff_ne]
      exact fun none => invalid (.inl none.symm)
    rw [if_pos empty, empty]
    simp [reserved, short]
  · rw [if_neg empty, if_neg (fun killed => Bool.false_ne_true killed.1)]
    rfl

/-- The share that a reservation left is quoted and reserved alike. -/
theorem toyOffer_rest_quoted :
    ∃ log, Log.run toyPrimitives {} toyCalls = some log ∧
      (log.book.quote toyPrimitives 12 (ascii "XNO") (ascii "OBX") 4).1 =
        reserved 4 (log.book.reserve toyPrimitives 12 12 (ascii "XNO") (ascii "OBX") 4 {}).1 := by
  have covered : ((Log.run toyPrimitives {} toyCalls).map fun log =>
      decide (Covered toyPrimitives log.book.fills (log.book.matchingOffersLocked toyPrimitives 12
        (ascii "XNO") (ascii "OBX")).1 4)) = some true := by
    decide +kernel
  obtain ⟨log, ran, covered⟩ := Option.map_eq_some_iff.mp covered
  exact ⟨log, ran, quote_matches_reserve toyPrimitives toyCalls toyCalls_collisionFree log ran 12 12
    le_rfl (ascii "XNO") (ascii "OBX") 4 (by decide) (of_decide_eq_true covered)⟩

/-- After a reservation a quote still counts what has been taken. -/
theorem quote_of_reserved_offer : ¬ ∀ (V : Primitives) (ops : List Op),
    (∀ op ∈ ops, ∀ op' ∈ ops, ∀ o o', op.posts = some o → op'.posts = some o' →
      o.id V = o'.id V → o.core = o'.core) → ∀ log, Log.run V {} ops = some log →
    ∀ (now now' : Int), now ≤ now' → ∀ (giveAsset getAsset : Bytes) (size : UInt64),
      minOrderSizeFor giveAsset ≤ size →
      (log.book.quote V now' giveAsset getAsset size).1 =
        reserved size (log.book.reserve V now now' giveAsset getAsset size {}).1 := by
  intro promise
  have answers : ((Log.run toyPrimitives {} toyCalls).map fun log =>
      ((log.book.quote toyPrimitives 12 (ascii "XNO") (ascii "OBX") 7).1,
        reserved 7 (log.book.reserve toyPrimitives 12 12 (ascii "XNO") (ascii "OBX") 7 {}).1)) =
      some ((7, 10, 1, true), (4, 5, 1, false)) := by
    decide +kernel
  obtain ⟨log, ran, answers⟩ := Option.map_eq_some_iff.mp answers
  obtain ⟨quoted, taken⟩ := Prod.mk.inj answers
  have same := promise toyPrimitives toyCalls toyCalls_collisionFree log ran 12 12 le_rfl
    (ascii "XNO") (ascii "OBX") 7 (by decide)
  rw [quoted, taken] at same
  exact absurd same (by decide)

end Obscura.Swapbook
