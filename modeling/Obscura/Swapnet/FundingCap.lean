import Obscura.Swapnet.Reconciler

/-! # The maker's funding cap

What a session is funded with is accepted against one of the maker's own offers, while the
liquidity is reserved by a walk over everyone's offers. When every walk ends on the offer the
Init was accepted for, with one slice of the Init's size, the reservations of live sessions and
of settled swaps are slices of that offer, which the book never oversells.
-/

namespace Obscura.Swapnet

open Wire Swapbook

/-! ## What a walk takes -/

namespace Walking

variable (V : Primitives)

/-- What a reserve walk takes from an offer, with the amount still to pay: what the taker pays
and receives, if there is anything to take. -/
def slice (fills : GoMap Fill) (o : Offer) (remaining : UInt64) : Option (UInt64 × UInt64) :=
  let f := (fillForLocked fills (o.id V) o).1
  if f.status = .filled ∨ f.status = .cancelled ∨ f.remGet = 0 then
    none
  else
    let pay := if remaining < f.remGet then remaining else f.remGet
    let recv := mulDivFloor pay o.giveAmount o.getAmount
    if pay = 0 ∨ recv = 0 then none
    else some (pay, if f.remGve < recv then f.remGve else recv)

/-- Of the offers a walk goes over, `o` is the first with anything to take, what is received from
it is `size`, and after it nothing is left to pay or nothing to take. -/
def Backs (fills : GoMap Fill) (o : Offer) (size remaining : UInt64) : List Offer → Prop
  | [] => False
  | o' :: side =>
    if o' = o then
      ∃ taken ∈ slice V fills o remaining, taken.2 = size ∧
        (remaining - taken.1 = 0 ∨
          ∀ o'' ∈ side, slice V fills o'' (remaining - taken.1) = none)
    else
      slice V fills o' remaining = none ∧ Backs fills o size remaining side

instance decideBacks (fills : GoMap Fill) (o : Offer) (size remaining : UInt64) :
    ∀ side, Decidable (Backs V fills o size remaining side)
  | [] => .isFalse nofun
  | o' :: side =>
    have := decideBacks fills o size remaining side
    inferInstanceAs (Decidable (if o' = o then _ else _))

/-- No offer of the walk has anything to take. -/
def Dry (fills : GoMap Fill) (remaining : UInt64) (side : List Offer) : Prop :=
  ∀ o ∈ side, slice V fills o remaining = none

instance (fills : GoMap Fill) (remaining : UInt64) (side : List Offer) :
    Decidable (Dry V fills remaining side) :=
  inferInstanceAs (Decidable (∀ o ∈ side, slice V fills o remaining = none))

/-- Two fill tables that show the same state of the offers of a walk. -/
def Agree (fills fills' : GoMap Fill) (side : List Offer) : Prop :=
  ∀ o ∈ side, (fillForLocked fills' (o.id V) o).1 = (fillForLocked fills (o.id V) o).1

variable {V} {fills : GoMap Fill} {side : List Offer}

theorem Agree.slice {fills' : GoMap Fill} (agree : Agree V fills fills' side) {o : Offer}
    (among : o ∈ side) (remaining : UInt64) :
    slice V fills' o remaining = slice V fills o remaining := by
  unfold Walking.slice
  rw [agree o among]

theorem Agree.insert {fills' : GoMap Fill} (agree : Agree V fills fills' side) {id : Hash}
    (other : id ∉ side.map (Offer.id V)) (f : Fill) : Agree V fills (fills'.insert id f) side := by
  intro o among
  have different : id ≠ o.id V := fun same => other (same ▸ List.mem_map_of_mem among)
  rw [← agree o among, fillForLocked, fillForLocked, OrdMap.lookup_insert, if_neg different]
  cases fills'[o.id V]? with
  | none => rfl
  | some f => rfl

theorem Agree.seed {fills' : GoMap Fill} (agree : Agree V fills fills' side) {o : Offer}
    (other : o.id V ∉ side.map (Offer.id V)) :
    Agree V fills (fillForLocked fills' (o.id V) o).2 side := by
  rw [fillForLocked]
  cases fills'[o.id V]? with
  | none => exact agree.insert other o.fresh
  | some f => exact agree

/-- An offer with nothing to take is passed over. -/
theorem reserveWalk_skip {o : Offer} {walk : Book.Walk} (left : walk.remaining ≠ 0)
    (nothing : slice V walk.fills o walk.remaining = none) :
    Book.reserveWalk V {} (o :: side) walk =
      Book.reserveWalk V {} side
        { walk with fills := (fillForLocked walk.fills (o.id V) o).2 } := by
  unfold slice at nothing
  rw [Book.reserveWalk, if_neg left, if_neg (by simp), if_neg (by simp)]
  dsimp only at nothing ⊢
  generalize (fillForLocked walk.fills (o.id V) o).1 = f at nothing ⊢
  by_cases exhausted : f.status = .filled ∨ f.status = .cancelled ∨ f.remGet = 0
  · rw [if_pos exhausted]
  rw [if_neg exhausted] at nothing ⊢
  generalize (if walk.remaining < f.remGet then walk.remaining else f.remGet) = pay at nothing ⊢
  by_cases unpaid : pay = 0
  · rw [if_pos unpaid]
  rw [if_neg unpaid]
  by_cases unreceived : mulDivFloor pay o.giveAmount o.getAmount = 0
  · rw [if_pos unreceived]
  · rw [if_neg (not_or.mpr ⟨unpaid, unreceived⟩)] at nothing
    cases nothing

/-- An offer with something to take gives it. -/
theorem reserveWalk_take (side : List Offer) {o : Offer} {walk : Book.Walk}
    (left : walk.remaining ≠ 0) {pay recv : UInt64}
    (taken : slice V walk.fills o walk.remaining = some (pay, recv)) :
    ∃ f, Book.reserveWalk V {} (o :: side) walk =
      Book.reserveWalk V {} side
        { fills := (fillForLocked walk.fills (o.id V) o).2.insert (o.id V) f
          res := walk.res ++ [⟨o.id V, o.maker, pay, recv⟩]
          getOut := walk.getOut + recv
          giveIn := walk.giveIn + pay
          remaining := walk.remaining - pay } := by
  unfold slice at taken
  rw [Book.reserveWalk, if_neg left, if_neg (by simp), if_neg (by simp)]
  dsimp only at taken ⊢
  generalize (fillForLocked walk.fills (o.id V) o).1 = f at taken ⊢
  by_cases exhausted : f.status = .filled ∨ f.status = .cancelled ∨ f.remGet = 0
  · rw [if_pos exhausted] at taken
    cases taken
  rw [if_neg exhausted] at taken ⊢
  generalize (if walk.remaining < f.remGet then walk.remaining else f.remGet) = paid at taken ⊢
  by_cases empty : paid = 0 ∨ mulDivFloor paid o.giveAmount o.getAmount = 0
  · rw [if_pos empty] at taken
    cases taken
  rw [if_neg empty] at taken
  rw [if_neg (not_or.mp empty).1, if_neg (not_or.mp empty).2]
  obtain ⟨rfl, rfl⟩ := Prod.mk.inj (Option.some.inj taken)
  exact ⟨_, rfl⟩

theorem reserveWalk_dry {walk : Book.Walk} (distinct : (side.map (Offer.id V)).Nodup)
    (agree : Agree V fills walk.fills side)
    (dry : walk.remaining = 0 ∨ Dry V fills walk.remaining side) :
    (Book.reserveWalk V {} side walk).res = walk.res := by
  induction side generalizing walk with
  | nil => rfl
  | cons o side ih =>
    by_cases left : walk.remaining = 0
    · rw [Book.reserveWalk, if_pos left]
    · obtain ⟨here, rest⟩ := List.forall_mem_cons.mp (dry.resolve_left left)
      rw [List.map_cons, List.nodup_cons] at distinct
      rw [reserveWalk_skip left ((agree.slice List.mem_cons_self _).trans here)]
      have later : Agree V fills walk.fills side :=
        fun o among => agree o (List.mem_cons_of_mem _ among)
      exact ih distinct.2 (later.seed distinct.1) (Or.inr rest)

/-- A backed walk takes one slice, from the backing offer. -/
theorem reserveWalk_backs {walk : Book.Walk} (distinct : (side.map (Offer.id V)).Nodup)
    (agree : Agree V fills walk.fills side) (left : walk.remaining ≠ 0) {o : Offer}
    {size : UInt64} (backs : Backs V fills o size walk.remaining side) :
    ∃ pay, (Book.reserveWalk V {} side walk).res =
      walk.res ++ [⟨o.id V, o.maker, pay, size⟩] := by
  induction side generalizing walk with
  | nil => exact nomatch backs
  | cons o' side ih =>
    have later : Agree V fills walk.fills side :=
      fun o among => agree o (List.mem_cons_of_mem _ among)
    have distinct' := distinct
    rw [List.map_cons, List.nodup_cons] at distinct'
    rw [Backs] at backs
    split_ifs at backs with same
    · subst same
      obtain ⟨⟨pay, recv⟩, taken, rfl, ends⟩ := backs
      obtain ⟨f, walked⟩ := reserveWalk_take side left
        ((agree.slice List.mem_cons_self _).trans taken)
      refine ⟨pay, ?_⟩
      rw [walked]
      exact reserveWalk_dry distinct'.2 ((later.seed distinct'.1).insert distinct'.1 f) ends
    · obtain ⟨nothing, rest⟩ := backs
      rw [reserveWalk_skip left ((agree.slice List.mem_cons_self _).trans nothing)]
      exact ih distinct'.2 (later.seed distinct'.1) left rest

end Walking

/-! ## The funding cap -/

namespace Stage

/-- The session has been swept and its reservation committed. -/
def swept : Stage → Bool
  | .closing success | .over success => success
  | _ => false

end Stage

namespace Call

/-- What the call's session holds of the book. -/
def holds (call : Call) : Multiset Reservation := if call.stage.pending then call.res else 0

/-- What it has sold. -/
def sold (call : Call) : Multiset Reservation := if call.stage.swept then call.res else 0

theorem holds_pending {call : Call} (pending : call.stage.pending = true) :
    call.holds = call.res := if_pos pending

theorem holds_settled {call : Call} (settled : call.stage.pending = false) : call.holds = 0 :=
  if_neg (by rw [settled]; exact Bool.false_ne_true)

theorem sold_swept {call : Call} (swept : call.stage.swept = true) : call.sold = call.res :=
  if_pos swept

theorem sold_unswept {call : Call} (unswept : call.stage.swept = false) : call.sold = 0 :=
  if_neg (by rw [unswept]; exact Bool.false_ne_true)

/-- What the maker has funded, or is committed to fund, of an offer for the call's session. -/
def funds (V : Primitives) (id : Hash) (call : Call) : Nat :=
  if (call.stage.filed ∨ call.stage.swept) ∧ call.offer.id V = id then call.init.obxAmount.toNat
  else 0

end Call

namespace Maker

variable (V : Primitives)

/-- The OBX funded or committed against an offer, over live sessions and settled swaps. -/
def funded (m : Maker) (id : Hash) : Nat := OrdMap.sum (Call.funds V id) m.calls

/-- No offer is funded beyond what it gives, and every accepted session holds a live reservation
of its own size on the offer it was accepted for. -/
def Capped (m : Maker) : Prop :=
  (∀ (n : Nat) (call : Call), m.calls[n]? = some call →
    m.funded V (call.offer.id V) ≤ call.offer.giveAmount.toNat) ∧
  ∀ (n : Nat) (call : Call), m.calls[n]? = some call → call.stage.filed = true →
    ∃ r ∈ m.log.live, r.offerID = call.offer.id V ∧ r.recv = call.init.obxAmount ∧
      m.reserved[call.id]? = some ⟨n, [r]⟩

/-- When the gate reserves for an Init, the walk goes over the offers that sell OBX for XNO, best
rate first: either nothing is to be had, or all that is taken comes from the offer the Init was
accepted for and is its OBX amount. -/
def Backed (m : Maker) : Event → Prop
  | .reserve n now now' => ∀ call ∈ m.callAt n .matched,
      let units := xnoRawToOfferUnits call.init.xnoAmount
      let side := ((m.log.book.pruneLocked now).matchingOffersLocked V now' xno obx).1
      Walking.Dry V m.log.book.fills units side ∨
        Walking.Backs V m.log.book.fills call.offer call.init.obxAmount units side
  | _ => True

/-- What the cap needs of an event. -/
def Secure (m : Maker) (event : Event) : Prop := m.Matching event ∧ m.Backed V event

instance (m : Maker) (event : Event) : Decidable (m.Backed V event) :=
  match event with
  | .reserve n now now' => inferInstanceAs (Decidable (∀ call ∈ m.callAt n .matched,
      Walking.Dry V m.log.book.fills (xnoRawToOfferUnits call.init.xnoAmount)
          ((m.log.book.pruneLocked now).matchingOffersLocked V now' xno obx).1 ∨
        Walking.Backs V m.log.book.fills call.offer call.init.obxAmount
          (xnoRawToOfferUnits call.init.xnoAmount)
          ((m.log.book.pruneLocked now).matchingOffersLocked V now' xno obx).1))
  | .receive .. | .record .. | .enroll .. | .done .. | .unregister .. | .registry .. | .book .. =>
    .isTrue trivial

instance (m : Maker) (event : Event) : Decidable (m.Secure V event) :=
  inferInstanceAs (Decidable (_ ∧ _))

/-- The maker's sessions in the book. -/
structure Covered (known : Offer → Prop) (m : Maker) : Prop where
  sound : Log.Sound V known m.log
  shares : OrdMap.sum Call.holds m.calls + m.others ≤ m.log.live
  sales : OrdMap.sum Call.sold m.calls ≤ m.log.committed
  /-- A reservation is one slice of the offer, of the Init's size. -/
  exactly : ∀ (n : Nat) (call : Call), m.calls[n]? = some call →
    call.stage.pending = true ∨ call.stage.swept = true →
      ∃ r : Reservation, call.res = [r] ∧ r.offerID = call.offer.id V ∧
        r.recv = call.init.obxAmount
  offers : ∀ (n : Nat) (call : Call), m.calls[n]? = some call →
    known call.offer ∧ call.offer.WellFormed
  given : ∀ (n : Nat) (call : Call), m.calls[n]? = some call →
    call.stage = .matched → xnoRawToOfferUnits call.init.xnoAmount ≠ 0

variable {V} {makerPub : Bytes} {known : Offer → Prop} {m m' : Maker}

/-- A reservation that is accepted is one slice of the offer. -/
theorem reserve_backed (sound : Log.Sound V known m.log) {call : Call} {now now' : Int}
    (units : xnoRawToOfferUnits call.init.xnoAmount ≠ 0)
    (backed : Walking.Dry V m.log.book.fills (xnoRawToOfferUnits call.init.xnoAmount)
        ((m.log.book.pruneLocked now).matchingOffersLocked V now' xno obx).1 ∨
      Walking.Backs V m.log.book.fills call.offer call.init.obxAmount
        (xnoRawToOfferUnits call.init.xnoAmount)
        ((m.log.book.pruneLocked now).matchingOffersLocked V now' xno obx).1)
    {res : List Reservation} {getOut giveIn : UInt64} {book : Book}
    (reserved : m.log.book.reserve V now now' xno obx
      (xnoRawToOfferUnits call.init.xnoAmount) {} = (.ok (res, getOut, giveIn), book)) :
    ∃ r : Reservation, res = [r] ∧ r.offerID = call.offer.id V ∧
      r.recv = call.init.obxAmount := by
  generalize xnoRawToOfferUnits call.init.xnoAmount = size at units backed reserved
  have distinct := side_distinct (V := V) (b := m.log.book.pruneLocked now)
    (fun id o found => (sound.offers id o (pruned found)).2.2) now' xno obx
  have walked : res = (Book.reserveWalk V {}
      ((m.log.book.pruneLocked now).matchingOffersLocked V now' xno obx).1
      { fills := m.log.book.fills, remaining := size }).res ∧ res ≠ [] := by
    refine ⟨?_, reserve_ne_nil reserved⟩
    unfold Book.reserve at reserved
    split at reserved
    · exact nomatch reserved
    · dsimp only at reserved
      split_ifs at reserved
      · exact nomatch reserved
      · exact nomatch reserved
      · have same := (Prod.mk.inj reserved).1
        exact (Prod.mk.inj (Except.ok.inj same)).1.symm
  have start : Walking.Agree V m.log.book.fills
      ({ fills := m.log.book.fills, remaining := size } : Book.Walk).fills
      ((m.log.book.pruneLocked now).matchingOffersLocked V now' xno obx).1 := fun _ _ => rfl
  rcases backed with dry | backs
  · rw [Walking.reserveWalk_dry distinct start (Or.inr dry)] at walked
    exact absurd walked.1 walked.2
  · obtain ⟨pay, taken⟩ := Walking.reserveWalk_backs distinct start units backs
    rw [taken] at walked
    exact ⟨_, walked.1, rfl, rfl⟩

theorem makerOffers_known (sound : Log.Sound V known m.log) {now : Int} {o : Offer}
    (own : o ∈ makerOffers m.log.book now makerPub) : known o ∧ o.WellFormed := by
  unfold makerOffers at own
  split_ifs at own
  · exact nomatch own
  · obtain ⟨⟨id, _⟩, listed, rfl⟩ := List.mem_map.mp (List.mem_filter.mp own).1
    have live := pruned (Std.ExtTreeMap.mem_toList_iff_getElem?_eq_some.mp listed)
    have offer := sound.offers id _ live
    exact ⟨offer.1, offer.2.1⟩

namespace Covered

theorem empty : Covered V known {} where
  sound := by
    refine ⟨fun id o live => ?_, ⟨fun id f found => ?_, fun id f found => ?_,
      fun id f found => ?_, fun r member => ?_⟩⟩
    · simp at live
    · simp at found
    · simp at found
    · simp at found
    · simp at member
  shares := by simp
  sales := by simp
  exactly := by simp
  offers := by simp
  given := by simp

/-- A call moves on while the log changes with it. -/
theorem exchange (covered : m.Covered V known) {n : Nat} {call : Call}
    (found : m.calls[n]? = some call) (moved : Call) {log : Log} (sound : Log.Sound V known log)
    {held sales : Multiset Reservation} (holds : moved.holds = held) (sold : moved.sold = sales)
    (live : ∀ rest, call.holds + rest ≤ m.log.live → held + rest ≤ log.live)
    (committed : ∀ rest, call.sold + rest ≤ m.log.committed → sales + rest ≤ log.committed)
    (exactly : moved.stage.pending = true ∨ moved.stage.swept = true →
      ∃ r : Reservation, moved.res = [r] ∧ r.offerID = moved.offer.id V ∧
        r.recv = moved.init.obxAmount)
    (offer : moved.offer = call.offer) (unmatched : moved.stage ≠ .matched) :
    ({ m with log }.setCall n moved : Maker).Covered V known := by
  constructor
  case sound => exact sound
  case shares =>
    obtain ⟨rest, before, after⟩ := OrdMap.sum_split Call.holds m.calls found
    have shares := covered.shares
    rw [before, add_assoc] at shares
    change OrdMap.sum Call.holds (m.calls.insert n moved) + m.others ≤ log.live
    rw [after, add_assoc, holds]
    exact live _ shares
  case sales =>
    obtain ⟨rest, before, after⟩ := OrdMap.sum_split Call.sold m.calls found
    have sales := covered.sales
    rw [before] at sales
    change OrdMap.sum Call.sold (m.calls.insert n moved) ≤ log.committed
    rw [after, sold]
    exact committed _ sales
  case exactly =>
    intro n' call' found'
    rcases setCall_cases found' with ⟨-, rfl⟩ | ⟨-, found'⟩
    · exact exactly
    · exact covered.exactly n' call' found'
  case offers =>
    intro n' call' found'
    rcases setCall_cases found' with ⟨-, rfl⟩ | ⟨-, found'⟩
    · rw [offer]
      exact covered.offers n call found
    · exact covered.offers n' call' found'
  case given =>
    intro n' call' found' stage
    rcases setCall_cases found' with ⟨-, rfl⟩ | ⟨-, found'⟩
    · exact absurd stage unmatched
    · exact covered.given n' call' found' stage

theorem held_live (covered : m.Covered V known) {n : Nat} {call : Call}
    (found : m.calls[n]? = some call) (pending : call.stage.pending = true) :
    (call.res : Multiset Reservation) ≤ m.log.live := by
  obtain ⟨rest, split, -⟩ := OrdMap.sum_split Call.holds m.calls found
  have shares := covered.shares
  rw [split, Call.holds, if_pos pending, add_assoc] at shares
  exact (Multiset.le_add_right _ _).trans shares

theorem shares_without {mine live rest : Multiset Reservation} (shares : mine + rest ≤ live) :
    0 + rest ≤ live - mine := by
  rw [zero_add]
  exact le_tsub_of_add_le_left shares

theorem shares_less {mine live rest : Multiset Reservation} (shares : mine + rest ≤ live) :
    0 + rest ≤ live := by
  rw [zero_add]
  exact (Multiset.le_add_left _ _).trans shares

theorem congr (covered : m.Covered V known) (log : m'.log = m.log) (others : m'.others = m.others)
    (calls : m'.calls = m.calls) : m'.Covered V known := by
  obtain ⟨sound, shares, sales, exactly, offers, given⟩ := covered
  constructor
  case sound => rwa [log]
  case shares => rwa [log, others, calls]
  case sales => rwa [log, calls]
  case exactly => rwa [calls]
  case offers => rwa [calls]
  case given => rwa [calls]

section Steps

variable (collisionFree : ∀ o o', known o → known o' → o.id V = o'.id V → o.core = o'.core)

/-- A message keeps the commitments covered. -/
theorem receive (covered : m.Covered V known) (keyed : m.Keyed) {now : Int}
    {fromPeer raw : Bytes} {o : Offer}
    (opened : m.receive makerPub now fromPeer raw o = some m') : m'.Covered V known := by
  obtain ⟨env, init, -, -, accepted, units, rfl⟩ := receive_some opened
  have absent : m.calls[m.next]? = none := by
    rw [← Option.not_isSome_iff_eq_none]
    intro present
    obtain ⟨call, found⟩ := Option.isSome_iff_exists.mp present
    exact absurd (keyed.numbered m.next call found) (Nat.lt_irrefl _)
  constructor
  case sound => exact covered.sound.prune now
  case shares =>
    dsimp only
    rw [OrdMap.sum_insert _ _ _ absent, Call.holds_settled rfl, zero_add]
    exact covered.shares
  case sales =>
    dsimp only
    rw [OrdMap.sum_insert _ _ _ absent, Call.sold_unswept rfl, zero_add]
    exact covered.sales
  case exactly =>
    intro n call found
    rcases setCall_cases (m := m) found with ⟨-, rfl⟩ | ⟨-, found⟩
    · rintro (pending | swept)
      · exact nomatch pending
      · exact nomatch swept
    · exact covered.exactly n call found
  case offers =>
    intro n call found
    rcases setCall_cases (m := m) found with ⟨-, rfl⟩ | ⟨-, found⟩
    · exact makerOffers_known covered.sound accepted.2.2.1
    · exact covered.offers n call found
  case given =>
    intro n call found
    rcases setCall_cases (m := m) found with ⟨-, rfl⟩ | ⟨-, found⟩
    · exact fun _ => units
    · exact covered.given n call found

theorem refuse (covered : m.Covered V known) {n : Nat} {call : Call}
    (found : m.calls[n]? = some call) {log : Log} (sound : Log.Sound V known log)
    (live : ∀ rest, call.holds + rest ≤ m.log.live → 0 + rest ≤ log.live)
    (committed : m.log.committed ≤ log.committed) :
    (({ m with log } : Maker).setCall n { call with stage := .refused }).Covered V known := by
  refine covered.exchange found _ sound (Call.holds_settled rfl) (Call.sold_unswept rfl) live
    (fun rest sales => (shares_less sales).trans committed) ?_ rfl fun matched => nomatch matched
  rintro (pending | swept)
  · exact nomatch pending
  · exact nomatch swept

include collisionFree in
/-- A reservation keeps them covered. -/
theorem reserve (covered : m.Covered V known) {n : Nat} {now now' : Int}
    (backed : m.Backed V (.reserve n now now')) (stepped : m.reserve V n now now' = some m') :
    m'.Covered V known := by
  obtain ⟨call, found, stage, ⟨error, book, outcome, rfl⟩ |
    ⟨res, getOut, giveIn, book, outcome, rfl⟩⟩ := reserve_some stepped
  · have next : m.log.step V (.reserve now now' xno obx
        (xnoRawToOfferUnits call.init.xnoAmount) {}) = some { m.log with book } := by
      rw [Log.step, outcome]
    have sound := (Log.step_sound collisionFree covered.sound (by simp [Op.posts]) next).1
    exact covered.refuse found sound (fun rest shares => shares_less shares) le_rfl
  · have next : m.log.step V (.reserve now now' xno obx
        (xnoRawToOfferUnits call.init.xnoAmount) {}) =
          some { m.log with book, live := res + m.log.live } := by
      rw [Log.step, outcome]
    have sound := (Log.step_sound collisionFree covered.sound (by simp [Op.posts]) next).1
    have slice := reserve_backed covered.sound (covered.given n call found stage)
      (backed call (callAt_some.mpr ⟨found, stage⟩)) outcome
    have none : call.holds = 0 := Call.holds_settled (by rw [stage]; rfl)
    refine covered.exchange found { call with res, stage := .holding } sound
      (Call.holds_pending rfl) (Call.sold_unswept rfl) (fun rest shares => ?_)
      (fun rest sales => shares_less sales) (fun _ => slice) rfl fun matched => by cases matched
    rw [none, zero_add] at shares
    exact add_le_add_right shares _

include collisionFree in
theorem release_sound (covered : m.Covered V known) {n : Nat} {call : Call}
    (found : m.calls[n]? = some call) (pending : call.stage.pending = true) :
    Log.Sound V known { m.log with
      book := m.log.book.releaseReservation call.res, live := m.log.live - call.res } := by
  have next : m.log.step V (.release call.res) = some { m.log with
      book := m.log.book.releaseReservation call.res, live := m.log.live - call.res } := by
    rw [Log.step, if_pos (covered.held_live found pending)]
  exact (Log.step_sound collisionFree covered.sound (by simp [Op.posts]) next).1

theorem keep (covered : m.Covered V known) {n : Nat} {call : Call}
    (found : m.calls[n]? = some call) (pending : call.stage.pending = true) (stage : Stage)
    (still : stage.pending = true) (unswept : stage.swept = false) (unmatched : stage ≠ .matched) :
    (m.setCall n { call with stage }).Covered V known := by
  refine covered.exchange found { call with stage } covered.sound (Call.holds_pending still)
    (Call.sold_unswept unswept) (fun rest shares => ?_) (fun rest sales => shares_less sales)
    (fun _ => covered.exactly n call found (Or.inl pending)) rfl unmatched
  rwa [Call.holds_pending pending] at shares

include collisionFree in
/-- A record keeps them covered. -/
theorem record (covered : m.Covered V known) {n : Nat} (stepped : m.record n = some m') :
    m'.Covered V known := by
  obtain ⟨call, found, stage, ⟨-, rfl⟩ | ⟨-, rfl⟩⟩ := record_some stepped
  · have pending : call.stage.pending = true := by
      rw [stage]
      rfl
    have refused := covered.refuse found (covered.release_sound collisionFree found pending)
      (fun rest shares => shares_without (Call.holds_pending pending ▸ shares)) le_rfl
    exact refused.congr rfl rfl rfl
  · have kept := covered.keep found (by rw [stage]; rfl) .recorded rfl rfl
      fun matched => nomatch matched
    exact kept.congr rfl rfl rfl

theorem enroll (covered : m.Covered V known) {n : Nat} (stepped : m.enroll n = some m') :
    m'.Covered V known := by
  obtain ⟨call, found, stage, ⟨registry, -, rfl⟩ | ⟨error, -, rfl⟩⟩ := enroll_some stepped
  · have kept := covered.keep found (by rw [stage]; rfl) .running rfl rfl
      fun matched => nomatch matched
    exact kept.congr rfl rfl rfl
  · have refused := covered.refuse found covered.sound (fun rest shares => shares_less shares)
      le_rfl
    exact refused.congr rfl rfl rfl

include collisionFree in
/-- A call that is done keeps them covered. -/
theorem done (covered : m.Covered V known) (keyed : m.Keyed) {n : Nat} {now : Int}
    {success : Bool} {swapKey : String} (stepped : m.done n now success swapKey = some m') :
    m'.Covered V known := by
  obtain ⟨call, found, running, rfl⟩ := done_some stepped
  have pending : call.stage.pending = true := by
    rw [running]
    rfl
  have slice := covered.exactly n call found (Or.inl pending)
  have without : ∀ rest, call.holds + rest ≤ m.log.live → 0 + rest ≤ m.log.live - call.res :=
    fun rest shares => shares_without (Call.holds_pending pending ▸ shares)
  rw [keyed.makerDone found running]
  cases success with
  | true =>
    have next : m.log.step V (.commit now call.res obx xno swapKey "") = some
        { book := (m.log.book.commitTrade now call.res obx xno swapKey "").2
          live := m.log.live - call.res
          committed := call.res + m.log.committed } := by
      rw [Log.step, if_pos (covered.held_live found pending)]
    have sound :=
      (Log.step_sound collisionFree covered.sound (by simp [Op.posts]) next).1
    have exchanged := covered.exchange found { call with stage := .closing true } sound
      (Call.holds_settled rfl) (Call.sold_swept rfl) without
      (fun rest sales => add_le_add_right ((Multiset.le_add_left _ _).trans sales) _)
      (fun _ => slice) rfl fun matched => by cases matched
    exact exchanged.congr rfl rfl rfl
  | false =>
    have exchanged := covered.exchange found { call with stage := .closing false }
      (covered.release_sound collisionFree found pending) (Call.holds_settled rfl)
      (Call.sold_unswept rfl) without (fun rest sales => shares_less sales) (fun _ => slice) rfl
      fun matched => by cases matched
    exact exchanged.congr rfl rfl rfl

/-- A call that ends keeps them covered. -/
theorem unregister (covered : m.Covered V known) {n : Nat} (stepped : m.unregister n = some m') :
    m'.Covered V known := by
  obtain ⟨call, success, found, closing, rfl⟩ := unregister_some stepped
  have same : Call.sold { call with stage := .over success } = call.sold := by
    rw [Call.sold, Call.sold, closing]
    rfl
  have exchanged := covered.exchange found { call with stage := .over success } covered.sound
    (Call.holds_settled rfl) same (fun rest shares => shares_less shares)
    (fun rest sales => sales) (fun either => ?_) rfl fun matched => nomatch matched
  · exact exchanged.congr rfl rfl rfl
  · refine covered.exactly n call found (Or.inr ?_)
    rw [closing]
    exact either.resolve_left fun pending => nomatch pending

include collisionFree in
theorem step (covered : m.Covered V known) (keyed : m.Keyed) {event : Event}
    (posted : ∀ op, event = .book op → ∀ o, op.posts = some o → known o)
    (secure : m.Secure V event) (stepped : m.step V makerPub event = some m') :
    m'.Covered V known := by
  cases event with
  | receive now fromPeer raw o => exact covered.receive keyed stepped
  | reserve n now now' => exact covered.reserve collisionFree secure.2 stepped
  | record n => exact covered.record collisionFree stepped
  | enroll n => exact covered.enroll stepped
  | done n now success swapKey => exact covered.done collisionFree keyed stepped
  | unregister n => exact covered.unregister stepped
  | registry event =>
    rw [registryStep_some stepped]
    exact covered.congr rfl rfl rfl
  | book op =>
    obtain ⟨log, others, next, rfl, shares, sales⟩ := bookStep_some stepped
    obtain ⟨sound, -⟩ := Log.step_sound collisionFree covered.sound (posted op rfl) next
    exact ⟨sound, shares _ covered.shares, covered.sales.trans sales, covered.exactly,
      covered.offers, covered.given⟩

/-- The slices of an offer in a collection of reservations add up. -/
def received (id : Hash) : Multiset Reservation →+ Nat where
  toFun held := (recvs id held).sum
  map_zero' := by simp [recvs]
  map_add' first second := by simp [recvs]

theorem funds_le (covered : m.Covered V known) (id : Hash) {n : Nat} {call : Call}
    (found : m.calls[n]? = some call) :
    call.funds V id ≤ received id (call.holds + call.sold) := by
  unfold Call.funds
  split_ifs with funding
  · obtain ⟨stage, same⟩ := funding
    have pendingOrSwept : call.stage.pending = true ∨ call.stage.swept = true := by
      rcases stage with filed | swept
      · exact Or.inl (Stage.pending_of_filed filed)
      · exact Or.inr swept
    obtain ⟨r, only, named, size⟩ := covered.exactly n call found pendingOrSwept
    have whole : received id ({r} : Multiset Reservation) = call.init.obxAmount.toNat := by
      change (recvs id ({r} : Multiset Reservation)).sum = _
      rw [← size, ← Multiset.cons_zero, recvs_cons, if_pos (named.trans same)]
      simp [recvs]
    have within : ({r} : Multiset Reservation) ≤ call.holds + call.sold := by
      rcases pendingOrSwept with pending | swept
      · rw [Call.holds_pending pending, only]
        exact Multiset.le_add_right _ _
      · rw [Call.sold_swept swept, only]
        exact Multiset.le_add_left _ _
    obtain ⟨rest, split⟩ := Multiset.le_iff_exists_add.mp within
    rw [split, map_add, whole]
    exact Nat.le_add_right _ _
  · exact Nat.zero_le _

include collisionFree in
/-- What is covered stays within the cap. -/
theorem capped (covered : m.Covered V known) (keyed : m.Keyed) : m.Capped V := by
  constructor
  · intro n call found
    obtain ⟨own, formed⟩ := covered.offers n call found
    have held : m.funded V (call.offer.id V) ≤
        received (call.offer.id V) (m.log.live + m.log.committed) := by
      have sums : OrdMap.sum (fun call => call.holds + call.sold) m.calls ≤
          m.log.live + m.log.committed := by
        rw [OrdMap.sum_add]
        exact add_le_add ((Multiset.le_add_right _ _).trans covered.shares) covered.sales
      obtain ⟨rest, split⟩ := Multiset.le_iff_exists_add.mp sums
      rw [split, map_add, OrdMap.map_sum]
      refine le_trans ?_ (Nat.le_add_right _ _)
      exact OrdMap.sum_le_sum m.calls fun n call found => covered.funds_le _ found
    refine held.trans ?_
    cases stored : m.log.book.fills[call.offer.id V]? with
    | none =>
      have nothing := (covered.sound.fills.unheld stored).2
      exact nothing.le.trans (Nat.zero_le _)
    | some f =>
      obtain ⟨o', known', formed', same, -, give⟩ := covered.sound.fills.backed _ f stored
      have core := collisionFree o' call.offer known' own same
      have amounts := (Offer.amounts_of_core formed' formed core).1
      have total := covered.sound.fills.received _ f stored
      rw [give, amounts] at total
      exact (Nat.le_add_left _ _).trans_eq total
  · intro n call found filed
    have pending := Stage.pending_of_filed filed
    obtain ⟨r, only, named, size⟩ := covered.exactly n call found (Or.inl pending)
    refine ⟨r, ?_, named, size, ?_⟩
    · have live := covered.held_live found pending
      rw [only] at live
      exact Multiset.mem_of_le live (Multiset.mem_singleton_self r)
    · rw [← only]
      exact keyed.entered n call found filed

end Steps

end Covered

/-- The offer an event posts. -/
def Posts : Event → Option Offer
  | .book op => op.posts
  | _ => none

/-- **Funding cap.** In a run from an idle maker in which every Init whose reservation is filed
names the swap of its envelope, and every reserving walk finds nothing or takes one slice of the
Init's size from the offer it was accepted for, no own offer is ever funded beyond what it gives,
and every accepted session holds a live reservation of its size on that offer. -/
theorem funding_capped (V : Primitives) (makerPub : Bytes) (events : List Event)
    (collisionFree : ∀ event ∈ events, ∀ event' ∈ events, ∀ o o', Posts event = some o →
      Posts event' = some o' → o.id V = o'.id V → o.core = o'.core)
    (secure : ({} : Maker).Along V makerPub (Secure V) events) (m : Maker)
    (ran : ({} : Maker).run V makerPub events = some m) : m.Capped V := by
  let known : Offer → Prop := fun o => ∃ event ∈ events, Posts event = some o
  have distinct : ∀ o o', known o → known o' → o.id V = o'.id V → o.core = o'.core := by
    rintro o o' ⟨event, among, posts⟩ ⟨event', among', posts'⟩ same
    exact collisionFree event among event' among' o o' posts posts' same
  have kept := run_invariant (fun m => m.Keyed ∧ m.Covered V known)
    (fun event among m m' held secure stepped =>
      ⟨held.1.step secure.1 stepped,
        held.2.step distinct held.1
          (fun op same o posts => ⟨event, among, by rw [same]; exact posts⟩) secure stepped⟩)
    ⟨Keyed.empty, Covered.empty⟩ secure ran
  exact kept.2.capped distinct kept.1

/-- A session that takes the whole offer. -/
theorem toyRun_capped : ∃ m, ({} : Maker).run toyPrimitives toyOffer.maker
    (toyRun (List.replicate 32 5) (List.replicate 32 5) true) = some m ∧
      m.Capped toyPrimitives := by
  have ends : (({} : Maker).run toyPrimitives toyOffer.maker
      (toyRun (List.replicate 32 5) (List.replicate 32 5) true)).isSome = true := by
    decide +kernel
  obtain ⟨m, ran⟩ := Option.isSome_iff_exists.mp ends
  have secure : ({} : Maker).Along toyPrimitives toyOffer.maker (Secure toyPrimitives)
      (toyRun (List.replicate 32 5) (List.replicate 32 5) true) := by
    decide +kernel
  have only : ∀ event ∈ toyRun (List.replicate 32 5) (List.replicate 32 5) true, ∀ o,
      Posts event = some o → o = toyOffer := by
    simp [toyRun, Posts, Op.posts]
  have collisionFree : ∀ event ∈ toyRun (List.replicate 32 5) (List.replicate 32 5) true,
      ∀ event' ∈ toyRun (List.replicate 32 5) (List.replicate 32 5) true, ∀ o o',
        Posts event = some o → Posts event' = some o' →
          o.id toyPrimitives = o'.id toyPrimitives → o.core = o'.core := by
    intro event among event' among' o o' posts posts' _
    rw [only event among o posts, only event' among' o' posts']
  exact ⟨m, ran, funding_capped _ _ _ collisionFree secure m ran⟩

/-- Another maker sells more OBX for the same XNO, so the first Init for the own offer reserves
there and the second on the own offer. -/
def rivalRun : List Event :=
  [.book (.add 10 10 { toyOffer with maker := List.replicate 32 2, giveAmount := 20 } false),
    .book (.add 10 10 toyOffer false)] ++
  [(0, 5), (1, 6)].flatMap fun (n, byte) =>
    [.receive 11 [104, 58, 49] (toyEnvelope (List.replicate 32 byte) (List.replicate 32 byte))
        toyOffer,
      .reserve n 11 11, .record n, .enroll n]

/-- Two sessions run against an offer that covers one. -/
theorem rival_overfunds : ¬ ∀ (events : List Event) (m : Maker),
    ({} : Maker).run toyPrimitives toyOffer.maker events = some m → m.Capped toyPrimitives := by
  intro capped
  have twice : ((({} : Maker).run toyPrimitives toyOffer.maker rivalRun).bind fun m =>
      m.calls[1]?.map fun call =>
        (call.offer.giveAmount.toNat, m.funded toyPrimitives (call.offer.id toyPrimitives))) =
      some (10, 20) := by
    decide +kernel
  obtain ⟨m, ran, found⟩ := Option.bind_eq_some_iff.mp twice
  obtain ⟨call, found, amounts⟩ := Option.map_eq_some_iff.mp found
  obtain ⟨gives, funded⟩ := Prod.mk.inj amounts
  have within := (capped rivalRun m ran).1 1 call found
  rw [gives, funded] at within
  exact absurd within (by decide)

end Maker

end Obscura.Swapnet
