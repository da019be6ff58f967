import Obscura.Lib.Slices
import Obscura.Swapbook.Book
import Obscura.Testnet

/-! # No offer is oversold

Runs of the order book in any order of calls, in which every reservation is released
or committed at most once. What an offer has left and what its outstanding and
committed reservations hold always add up to the offer its maker signed, also across
cancellations, expiry and re-adding: the fill state of an offer outlives the offer.
-/

namespace Obscura.Swapbook

open Wire

/-! ## An offer's identifier fixes its amounts -/

/-- What admission to the book checks about an offer's shape. -/
structure Offer.WellFormed (o : Offer) : Prop where
  maker : o.maker.length < 2 ^ 32
  giveAsset : o.giveAsset.length < 2 ^ 32
  getAsset : o.getAsset.length < 2 ^ 32
  giveAmount : o.giveAmount ≠ 0
  getAmount : o.getAmount ≠ 0

theorem Offer.wellFormed_of_verify {V : Primitives} {o : Offer} {now : Int}
    (verified : o.verify V now = true) : o.WellFormed := by
  rw [Offer.verify] at verified
  split_ifs at verified with lengths amounts assets
  simp only [not_or, ne_eq, not_not] at lengths amounts
  have short : ∀ asset, validAsset asset = true → asset.length < 2 ^ 32 := by
    intro asset valid
    simp only [validAsset, Bool.and_eq_true, decide_eq_true_eq] at valid
    exact valid.1.2.trans_lt (by decide)
  simp only [Bool.not_eq_true', not_or, Bool.not_eq_false] at assets
  exact ⟨by rw [lengths.1]; norm_num, short _ assets.1, short _ assets.2, amounts.1, amounts.2.1⟩

/-- A field delimits itself. -/
theorem putB_delimiting : SelfDelimiting (fun bytes => bytes.length < 2 ^ 32) putB := by
  have lengths : SelfDelimiting (· < 2 ^ 32) (bigEndian 4) :=
    .of_width 4 (length_bigEndian 4) fun _ _ firstSmall secondSmall same =>
      bigEndian_inj 4 (by norm_num; exact firstSmall) (by norm_num; exact secondSmall) same
  intro first second firstSmall secondSmall left right same
  simp only [putB, List.append_assoc] at same
  obtain ⟨long, same⟩ := lengths firstSmall secondSmall same
  exact List.append_inj same long

/-- The signed bytes determine the amounts. -/
theorem Offer.amounts_of_core {o o' : Offer} (formed : o.WellFormed) (formed' : o'.WellFormed)
    (same : o.core = o'.core) : o.giveAmount = o'.giveAmount ∧ o.getAmount = o'.getAmount := by
  simp only [Offer.core, List.append_assoc] at same
  obtain ⟨-, same⟩ := putB_delimiting formed.maker formed'.maker same
  obtain ⟨-, same⟩ := putB_delimiting formed.giveAsset formed'.giveAsset same
  obtain ⟨-, same⟩ := putB_delimiting formed.getAsset formed'.getAsset same
  have give := putU64_delimiting o.giveAmount.toNat_lt o'.giveAmount.toNat_lt same
  have get := putU64_delimiting o.getAmount.toNat_lt o'.getAmount.toNat_lt give.2
  exact ⟨UInt64.toNat_inj.mp give.1, UInt64.toNat_inj.mp get.1⟩

/-! ## What reservations hold -/

/-- The slices of an offer, as paid by the takers. -/
def pays (id : Hash) (held : Multiset Reservation) : Multiset Nat :=
  (held.filter fun r => r.offerID = id).map fun r => r.pay.toNat

/-- The slices of an offer, as received by the takers. -/
def recvs (id : Hash) (held : Multiset Reservation) : Multiset Nat :=
  (held.filter fun r => r.offerID = id).map fun r => r.recv.toNat

@[simp] theorem pays_cons (id : Hash) (r : Reservation) (held : Multiset Reservation) :
    (pays id (r ::ₘ held)).sum = (if r.offerID = id then r.pay.toNat else 0) + (pays id held).sum := by
  by_cases same : r.offerID = id <;> simp [pays, same]

@[simp] theorem recvs_cons (id : Hash) (r : Reservation) (held : Multiset Reservation) :
    (recvs id (r ::ₘ held)).sum =
      (if r.offerID = id then r.recv.toNat else 0) + (recvs id held).sum := by
  by_cases same : r.offerID = id <;> simp [recvs, same]

/-- The fill states and the reservations they are held by. -/
structure Sound (V : Primitives) (known : Offer → Prop) (fills : GoMap Fill)
    (held : Multiset Reservation) : Prop where
  backed : ∀ id f, fills[id]? = some f → ∃ o, known o ∧ o.WellFormed ∧ o.id V = id ∧
    f.get = o.getAmount ∧ f.give = o.giveAmount
  paid : ∀ id f, fills[id]? = some f → f.remGet.toNat + (pays id held).sum = f.get.toNat
  received : ∀ id f, fills[id]? = some f → f.remGve.toNat + (recvs id held).sum = f.give.toNat
  priced : ∀ r ∈ held, ∃ f, fills[r.offerID]? = some f ∧
    r.recv.toNat = Slices.price f.give.toNat f.get.toNat r.pay.toNat

namespace Sound

variable {V : Primitives} {known : Offer → Prop} {fills : GoMap Fill} {held : Multiset Reservation}

theorem unheld (sound : Sound V known fills held) {id : Hash} (absent : fills[id]? = none) :
    (pays id held).sum = 0 ∧ (recvs id held).sum = 0 := by
  have none : held.filter (fun r => r.offerID = id) = 0 := by
    refine Multiset.filter_eq_nil.mpr fun r member same => ?_
    obtain ⟨f, found, -⟩ := sound.priced r member
    rw [same, absent] at found
    cases found
  simp [pays, recvs, none]

theorem recvs_eq (sound : Sound V known fills held) {id : Hash} {f : Fill}
    (found : fills[id]? = some f) :
    recvs id held = (pays id held).map (Slices.price f.give.toNat f.get.toNat) := by
  rw [recvs, pays, Multiset.map_map]
  refine Multiset.map_congr rfl fun r member => ?_
  obtain ⟨member, same⟩ := Multiset.mem_filter.mp member
  obtain ⟨f', found', priced⟩ := sound.priced r member
  rw [same, found] at found'
  obtain rfl := Option.some.inj found'
  exact priced

/-- Changing one offer's remainder together with what is held of it. -/
theorem update (sound : Sound V known fills held) {held' : Multiset Reservation} {id : Hash}
    {f f' : Fill} (found : fills[id]? = some f) (get : f'.get = f.get) (give : f'.give = f.give)
    (paid : f'.remGet.toNat + (pays id held').sum = f.get.toNat)
    (received : f'.remGve.toNat + (recvs id held').sum = f.give.toNat)
    (others : ∀ id', id ≠ id' → (pays id' held').sum = (pays id' held).sum ∧
      (recvs id' held').sum = (recvs id' held).sum)
    (priced : ∀ r ∈ held', r ∈ held ∨ r.offerID = id ∧
      r.recv.toNat = Slices.price f.give.toNat f.get.toNat r.pay.toNat) :
    Sound V known (fills.insert id f') held' := by
  refine ⟨?_, ?_, ?_, ?_⟩
  · intro id' g stored
    rw [OrdMap.lookup_insert] at stored
    split_ifs at stored with same
    · obtain rfl := Option.some.inj stored
      rw [get, give]
      exact sound.backed id' f (same ▸ found)
    · exact sound.backed id' g stored
  · intro id' g stored
    rw [OrdMap.lookup_insert] at stored
    split_ifs at stored with same
    · obtain rfl := Option.some.inj stored
      rw [get, ← same]
      exact paid
    · rw [(others id' same).1]
      exact sound.paid id' g stored
  · intro id' g stored
    rw [OrdMap.lookup_insert] at stored
    split_ifs at stored with same
    · obtain rfl := Option.some.inj stored
      rw [give, ← same]
      exact received
    · rw [(others id' same).2]
      exact sound.received id' g stored
  · intro r member
    rw [OrdMap.lookup_insert]
    rcases priced r member with old | ⟨own, price⟩
    · obtain ⟨g, found', price⟩ := sound.priced r old
      split_ifs with same
      · rw [← same, found] at found'
        obtain rfl := Option.some.inj found'
        exact ⟨f', rfl, by rw [get, give]; exact price⟩
      · exact ⟨g, found', price⟩
    · rw [if_pos own.symm]
      exact ⟨f', rfl, by rw [get, give]; exact price⟩

/-- A live offer without a fill state gets a full one. -/
theorem seed (sound : Sound V known fills held) {o : Offer} (listed : known o)
    (formed : o.WellFormed) (absent : fills[o.id V]? = none) :
    Sound V known (fills.insert (o.id V) o.fresh) held := by
  obtain ⟨noPays, noRecvs⟩ := sound.unheld absent
  refine ⟨?_, ?_, ?_, ?_⟩
  · intro id f stored
    rw [OrdMap.lookup_insert] at stored
    split_ifs at stored with same
    · obtain rfl := Option.some.inj stored
      exact ⟨o, listed, formed, same, rfl, rfl⟩
    · exact sound.backed id f stored
  · intro id f stored
    rw [OrdMap.lookup_insert] at stored
    split_ifs at stored with same
    · obtain rfl := Option.some.inj stored
      rw [← same, noPays]
      rfl
    · exact sound.paid id f stored
  · intro id f stored
    rw [OrdMap.lookup_insert] at stored
    split_ifs at stored with same
    · obtain rfl := Option.some.inj stored
      rw [← same, noRecvs]
      rfl
    · exact sound.received id f stored
  · intro r member
    obtain ⟨f, found, priced⟩ := sound.priced r member
    rw [OrdMap.lookup_insert]
    split_ifs with same
    · rw [← same, absent] at found
      cases found
    · exact ⟨f, found, priced⟩

theorem fillFor (sound : Sound V known fills held)
    (collisionFree : ∀ o o', known o → known o' → o.id V = o'.id V → o.core = o'.core)
    {o : Offer} (listed : known o) (formed : o.WellFormed) :
    Sound V known (fillForLocked fills (o.id V) o).2 held ∧
      (fillForLocked fills (o.id V) o).2[o.id V]? = some (fillForLocked fills (o.id V) o).1 ∧
      (fillForLocked fills (o.id V) o).1.get = o.getAmount ∧
      (fillForLocked fills (o.id V) o).1.give = o.giveAmount := by
  rw [fillForLocked]
  cases found : fills[o.id V]? with
  | none => exact ⟨sound.seed listed formed found, by rw [OrdMap.lookup_insert, if_pos rfl], rfl, rfl⟩
  | some f =>
    obtain ⟨o', listed', formed', same, get, give⟩ := sound.backed _ f found
    have core := collisionFree o' o listed' listed same
    obtain ⟨sameGive, sameGet⟩ := Offer.amounts_of_core formed' formed core
    exact ⟨sound, found, get.trans sameGet, give.trans sameGive⟩

theorem get_pos (sound : Sound V known fills held) {id : Hash} {f : Fill}
    (found : fills[id]? = some f) : 0 < f.get.toNat := by
  obtain ⟨o, -, formed, -, get, -⟩ := sound.backed id f found
  rw [get]
  refine Nat.pos_of_ne_zero fun zero => formed.getAmount ?_
  exact UInt64.toNat_inj.mp zero

/-- Taking a slice within the remainder: its price is exact and covered, and the
reservation holds what the remainder loses. -/
theorem take (sound : Sound V known fills held) {id : Hash} {f : Fill}
    (found : fills[id]? = some f) {pay : UInt64} (within : pay ≤ f.remGet) (maker : Bytes)
    (status : Status) :
    mulDivFloor pay f.give f.get ≤ f.remGve ∧
    Sound V known
      (fills.insert id { f with
        remGet := f.remGet - pay, remGve := f.remGve - mulDivFloor pay f.give f.get, status })
      ({ offerID := id, maker, pay, recv := mulDivFloor pay f.give f.get } ::ₘ held) := by
  have positive := sound.get_pos found
  have paid := sound.paid id f found
  have received := sound.received id f found
  have within' : pay.toNat ≤ f.remGet.toNat := UInt64.le_iff_toNat_le.mp within
  have covered : (recvs id held).sum + Slices.price f.give.toNat f.get.toNat pay.toNat ≤
      f.give.toNat := by
    rw [sound.recvs_eq found]
    exact Slices.next_slice_fits positive (by omega)
  have price : (mulDivFloor pay f.give f.get).toNat =
      Slices.price f.give.toNat f.get.toNat pay.toNat := by
    refine mulDivFloor_eq (fun zero => ?_) ?_
    · rw [zero] at positive
      exact absurd positive (by decide)
    · have bound := f.give.toNat_lt
      rw [Slices.price] at covered
      omega
  have fits : mulDivFloor pay f.give f.get ≤ f.remGve := by
    rw [UInt64.le_iff_toNat_le, price]
    omega
  refine ⟨fits, sound.update found rfl rfl ?_ ?_ ?_ ?_⟩
  · simp only [pays_cons, if_true, UInt64.toNat_sub_of_le _ _ within]
    omega
  · simp only [recvs_cons, if_true, UInt64.toNat_sub_of_le _ _ fits, price]
    omega
  · intro id' other
    simp [other]
  · intro r member
    rcases Multiset.mem_cons.mp member with rfl | old
    · exact .inr ⟨rfl, price⟩
    · exact .inl old

/-- Giving a held slice back takes no clamp. -/
theorem restore (sound : Sound V known fills held) {r : Reservation} (member : r ∈ held)
    {f : Fill} (found : fills[r.offerID]? = some f) :
    f.remGet.toNat + r.pay.toNat ≤ f.get.toNat ∧ f.remGve.toNat + r.recv.toNat ≤ f.give.toNat ∧
    Sound V known (fills.insert r.offerID (f.restore r)) (held.erase r) := by
  have split : r ::ₘ held.erase r = held := Multiset.cons_erase member
  have paid := sound.paid _ f found
  have received := sound.received _ f found
  rw [← split, pays_cons, if_pos rfl] at paid
  rw [← split, recvs_cons, if_pos rfl] at received
  have getBound := f.get.toNat_lt
  have giveBound := f.give.toNat_lt
  have remGet : (f.remGet + r.pay).toNat = f.remGet.toNat + r.pay.toNat := by
    rw [UInt64.toNat_add]
    omega
  have remGve : (f.remGve + r.recv).toNat = f.remGve.toNat + r.recv.toNat := by
    rw [UInt64.toNat_add]
    omega
  have getKept : ¬ f.get < f.remGet + r.pay := by
    rw [UInt64.lt_iff_toNat_lt, remGet]
    omega
  have giveKept : ¬ f.give < f.remGve + r.recv := by
    rw [UInt64.lt_iff_toNat_lt, remGve]
    omega
  refine ⟨by omega, by omega, sound.update found rfl rfl ?_ ?_ ?_ ?_⟩
  · simp only [Fill.restore, if_neg getKept, remGet]
    omega
  · simp only [Fill.restore, if_neg giveKept, remGve]
    omega
  · intro id' other
    rw [← split]
    simp [other]
  · intro r' kept
    exact .inl (Multiset.mem_of_mem_erase kept)

end Sound

/-! ## Releasing and committing -/

theorem smaller_le_left (a b : UInt64) : (if a < b then a else b) ≤ a := by
  split_ifs with less
  · exact UInt64.le_refl _
  · exact UInt64.not_lt.mp less

theorem smaller_le_right (a b : UInt64) : (if a < b then a else b) ≤ b := by
  split_ifs with less
  · exact UInt64.le_of_lt less
  · exact UInt64.le_refl _

/-- No clamp is taken when these reservations are released one after the other. -/
def Unclamped (fills : GoMap Fill) : List Reservation → Prop
  | [] => True
  | r :: res =>
    match fills[r.offerID]? with
    | none => Unclamped fills res
    | some f =>
      f.remGet.toNat + r.pay.toNat ≤ f.get.toNat ∧
        f.remGve.toNat + r.recv.toNat ≤ f.give.toNat ∧
        Unclamped (fills.insert r.offerID (f.restore r)) res

namespace Sound

variable {V : Primitives} {known : Offer → Prop}

theorem release {fills : GoMap Fill} {held : Multiset Reservation} (res : List Reservation)
    (sound : Sound V known fills (res + held)) :
    Unclamped fills res ∧ Sound V known (releaseLocked fills res) held := by
  induction res generalizing fills with
  | nil => exact ⟨trivial, by simpa [releaseLocked] using sound⟩
  | cons r res ih =>
    have member : r ∈ ((r :: res : List Reservation) : Multiset Reservation) + held :=
      Multiset.mem_add.mpr (.inl (Multiset.mem_coe.mpr List.mem_cons_self))
    obtain ⟨f, found, -⟩ := sound.priced r member
    obtain ⟨get, give, restored⟩ := sound.restore member found
    rw [← Multiset.cons_coe, Multiset.cons_add, Multiset.erase_cons_head] at restored
    obtain ⟨unclamped, released⟩ := ih restored
    simp only [Unclamped, releaseLocked, found]
    exact ⟨⟨get, give, unclamped⟩, released⟩

/-- Committing only touches statuses. -/
theorem confirm {fills : GoMap Fill} {held : Multiset Reservation} (res : List Reservation)
    (sound : Sound V known fills held) : Sound V known (Book.confirmAll fills res) held := by
  induction res generalizing fills with
  | nil => exact sound
  | cons r res ih =>
    rw [Book.confirmAll]
    cases found : fills[r.offerID]? with
    | none => exact ih sound
    | some f =>
      have kept : (Book.Fill.confirm f).get = f.get ∧ (Book.Fill.confirm f).give = f.give ∧
          (Book.Fill.confirm f).remGet = f.remGet ∧ (Book.Fill.confirm f).remGve = f.remGve := by
        rw [Book.Fill.confirm]
        split_ifs <;> exact ⟨rfl, rfl, rfl, rfl⟩
      obtain ⟨get, give, remGet, remGve⟩ := kept
      refine ih (sound.update found get give ?_ ?_ (fun _ _ => ⟨rfl, rfl⟩) fun _ old => .inl old)
      · rw [remGet]
        exact sound.paid _ f found
      · rw [remGve]
        exact sound.received _ f found

theorem coe_append_singleton_add (res : List Reservation) (r : Reservation)
    (held : Multiset Reservation) :
    ((res ++ [r] : List Reservation) : Multiset Reservation) + held = r ::ₘ (res + held) := by
  rw [← Multiset.coe_add, Multiset.coe_singleton, add_comm (res : Multiset Reservation), add_assoc,
    Multiset.singleton_add]

/-- A rung of a walk: the slice it takes is held. -/
theorem walk_take {walk : Book.Walk} {held : Multiset Reservation} {id : Hash} {o : Offer}
    {f : Fill} {pay : UInt64} (sound : Sound V known walk.fills (walk.res + held))
    (found : walk.fills[id]? = some f) (get : f.get = o.getAmount) (give : f.give = o.giveAmount)
    (within : pay ≤ f.remGet) :
    Sound V known (walk.take id o f pay (mulDivFloor pay o.giveAmount o.getAmount)).fills
      ((walk.take id o f pay (mulDivFloor pay o.giveAmount o.getAmount)).res + held) := by
  rw [← get, ← give]
  obtain ⟨fits, taken⟩ := sound.take found within o.maker
    (if f.remGet - pay = 0 ∨ f.remGve - mulDivFloor pay f.give f.get = 0 then .filled else .partly)
  have unclamped : ¬ f.remGve < mulDivFloor pay f.give f.get := UInt64.not_lt.mpr fits
  simp only [Book.Walk.take, if_neg unclamped, coe_append_singleton_add]
  exact taken

/-- A reserve walk over live offers holds what it takes. -/
theorem walk (collisionFree : ∀ o o', known o → known o' → o.id V = o'.id V → o.core = o'.core)
    {held : Multiset Reservation} (opts : Book.ReserveOpts) (side : List Offer)
    (listed : ∀ o ∈ side, known o ∧ o.WellFormed) (walk : Book.Walk)
    (sound : Sound V known walk.fills (walk.res + held)) :
    Sound V known (Book.reserveWalk V opts side walk).fills
      ((Book.reserveWalk V opts side walk).res + held) := by
  induction side generalizing walk with
  | nil => exact sound
  | cons o side ih =>
    obtain ⟨own, formed⟩ := listed o List.mem_cons_self
    have rest : ∀ o ∈ side, known o ∧ o.WellFormed :=
      fun o member => listed o (List.mem_cons_of_mem _ member)
    obtain ⟨seeded, found, get, give⟩ := sound.fillFor collisionFree own formed
    rw [Book.reserveWalk]
    split_ifs with done self slippage
    · exact sound
    · exact ih rest walk sound
    · exact sound
    generalize fillForLocked walk.fills (o.id V) o = answer at seeded found get give ⊢
    obtain ⟨f, fills⟩ := answer
    dsimp only at seeded found get give ⊢
    have seeded : Sound V known ({ walk with fills } : Book.Walk).fills
      (({ walk with fills } : Book.Walk).res + held) := seeded
    by_cases exhausted : f.status = .filled ∨ f.status = .cancelled ∨ f.remGet = 0
    · rw [if_pos exhausted]
      exact ih rest _ seeded
    rw [if_neg exhausted]
    have within := smaller_le_right walk.remaining f.remGet
    generalize (if walk.remaining < f.remGet then walk.remaining else f.remGet) = pay at within ⊢
    split_ifs with nothing worthless
    · exact ih rest _ seeded
    · exact ih rest _ seeded
    · exact ih rest _ (walk_take seeded found get give within)

end Sound

/-! ## Runs -/

/-- A call on the book. Calls that only read prune like `prune`. -/
inductive Op where
  | add (verifyNow now : Int) (o : Offer) (postOnly : Bool)
  | reserve (now now' : Int) (giveAsset getAsset : Bytes) (size : UInt64) (opts : Book.ReserveOpts)
  | release (res : List Reservation)
  | commit (now : Int) (res : List Reservation) (giveAsset getAsset : Bytes)
      (swapKey takerPub : String)
  | cancel (now : Int) (offerID : Hash) (sig : Bytes)
  | prune (now : Int)
  | offerFill (now : Int) (id : Hash)

/-- The book with the reservations it has handed out: those that are live and those
that were committed. -/
structure Log where
  book : Book := {}
  live : Multiset Reservation := 0
  committed : Multiset Reservation := 0

namespace Log

/-- A call; a reservation that is not live can be neither released nor committed. -/
def step (V : Primitives) (log : Log) : Op → Option Log
  | .add verifyNow now o postOnly =>
    some { log with book := (log.book.add V verifyNow now o postOnly).2 }
  | .reserve now now' giveAsset getAsset size opts =>
    match log.book.reserve V now now' giveAsset getAsset size opts with
    | (.error _, book) => some { log with book }
    | (.ok (res, _, _), book) => some { log with book, live := res + log.live }
  | .release res =>
    if (res : Multiset Reservation) ≤ log.live then
      some { log with book := log.book.releaseReservation res, live := log.live - res }
    else
      none
  | .commit now res giveAsset getAsset swapKey takerPub =>
    if (res : Multiset Reservation) ≤ log.live then
      some
        { book := (log.book.commitTrade now res giveAsset getAsset swapKey takerPub).2
          live := log.live - res
          committed := res + log.committed }
    else
      none
  | .cancel now offerID sig => some { log with book := (log.book.cancel V now offerID sig).2 }
  | .prune now => some { log with book := (log.book.pruneExpired now).2 }
  | .offerFill now id => some { log with book := (log.book.offerFill now id).2 }

/-- The log after a run of operations; none where one of them is not permitted. -/
def run (V : Primitives) (log : Log) : List Op → Option Log
  | [] => some log
  | op :: ops => (log.step V op).bind fun log => run V log ops

end Log

/-- The offer a call posts. -/
def Op.posts : Op → Option Offer
  | .add _ _ o _ => some o
  | _ => none

/-- The fill states and the reservations a call gives back to them, if any: those
released, or those rolled back because a fill-or-kill request cannot be filled. -/
def Op.restores (V : Primitives) (log : Log) : Op → Option (GoMap Fill × List Reservation)
  | .release res => some (log.book.fills, res)
  | .reserve now now' giveAsset getAsset size opts =>
    if Book.refuseReserve giveAsset getAsset size = none then
      let walk := (log.book.walkFor V now now' giveAsset getAsset size opts).2
      if walk.res ≠ [] ∧ opts.fok ∧ walk.giveIn < size then some (walk.fills, walk.res) else none
    else
      none
  | _ => none

/-- The live offers are known under their identifiers. -/
def Listed (V : Primitives) (known : Offer → Prop) (b : Book) : Prop :=
  ∀ (id : Hash) (o : Offer), b.offers[id]? = some o → known o ∧ o.WellFormed ∧ o.id V = id

theorem pruned {b : Book} {now : Int} {id : Hash} {o : Offer}
    (live : (b.pruneLocked now).offers[id]? = some o) : b.offers[id]? = some o := by
  rw [Book.pruneLocked, Std.ExtTreeMap.getElem?_filter'] at live
  exact Option.eq_some_of_filter_eq_some live

/-- The offers of a walk have different identifiers. -/
theorem side_distinct {V : Primitives} {b : Book}
    (named : ∀ (id : Hash) (o : Offer), b.offers[id]? = some o → o.id V = id)
    (now : Int) (giveAsset getAsset : Bytes) :
    ((b.matchingOffersLocked V now giveAsset getAsset).1.map (Offer.id V)).Nodup := by
  have keys : ((b.pruneLocked now).offers.toList.map fun entry => entry.2.id V).Nodup := by
    have same : (b.pruneLocked now).offers.toList.map (fun entry => entry.2.id V) =
        (b.pruneLocked now).offers.toList.map Prod.fst := by
      refine List.map_congr_left fun entry among => ?_
      have found := Std.ExtTreeMap.mem_toList_iff_getElem?_eq_some.mp among
      exact named entry.1 entry.2 (pruned found)
    rw [same, Std.ExtTreeMap.map_fst_toList_eq_keys]
    exact Std.ExtTreeMap.nodup_keys
  have sorted := (List.perm_insertionSort
    (fun a c => ¬ Book.ranksBefore V c a)
    (((b.pruneLocked now).offers.toList.map Prod.snd).filter fun o : Offer =>
      o.giveAsset = getAsset && o.getAsset = giveAsset && o.giveAmount ≠ 0 &&
        o.getAmount ≠ 0)).map (Offer.id V)
  refine sorted.nodup_iff.mpr ?_
  refine List.Nodup.sublist (List.filter_sublist.map _) ?_
  rw [List.map_map]
  exact keys

theorem add_fills (V : Primitives) (b : Book) (verifyNow now : Int) (o : Offer) (postOnly : Bool) :
    (b.add V verifyNow now o postOnly).2.fills = b.fills := by
  rw [Book.add, Book.addLocked]
  split_ifs <;> rfl

theorem cancel_fills (V : Primitives) (b : Book) (now : Int) (offerID : Hash) (sig : Bytes) :
    (b.cancel V now offerID sig).2.fills = b.fills := by
  rw [Book.cancel]
  split_ifs
  · rfl
  dsimp only
  split
  · rfl
  split
  · rfl
  split_ifs <;> rfl

namespace Listed

variable {V : Primitives} {known : Offer → Prop} {b : Book}

theorem prune (listed : Listed V known b) (now : Int) : Listed V known (b.pruneLocked now) :=
  fun id o live => listed id o (pruned live)

/-- A post keeps the offers listed. -/
theorem add (listed : Listed V known b) (verifyNow now : Int) {o : Offer} (posted : known o)
    (postOnly : Bool) : Listed V known (b.add V verifyNow now o postOnly).2 := by
  rw [Book.add]
  by_cases verified : o.verify V verifyNow = true
  · rw [if_neg (by simp [verified]), Book.addLocked]
    split_ifs with known full flood crosses
    · exact listed.prune now
    · exact listed.prune now
    · exact listed.prune now
    · exact listed.prune now
    · intro id o' live
      rw [OrdMap.lookup_insert] at live
      split_ifs at live with same
      · obtain rfl := Option.some.inj live
        exact ⟨posted, Offer.wellFormed_of_verify verified, same⟩
      · exact listed id o' (pruned live)
  · rw [if_pos (by simpa using verified)]
    split_ifs <;> exact listed

theorem cancel (listed : Listed V known b) (now : Int) (offerID : Hash) (sig : Bytes) :
    Listed V known (b.cancel V now offerID sig).2 := by
  rw [Book.cancel]
  split_ifs with length
  · exact listed
  dsimp only
  split
  · exact listed.prune now
  split
  · exact listed.prune now
  split_ifs with forged
  · exact listed.prune now
  · intro id o live
    rw [OrdMap.lookup_erase] at live
    split_ifs at live with same
    exact listed id o (pruned live)

theorem side (listed : Listed V known b) (now : Int) (giveAsset getAsset : Bytes) :
    ∀ o ∈ (b.matchingOffersLocked V now giveAsset getAsset).1, known o ∧ o.WellFormed := by
  intro o member
  simp only [Book.matchingOffersLocked, List.mem_insertionSort, List.mem_filter, List.mem_map,
    Prod.exists, exists_eq_right] at member
  obtain ⟨⟨id, found⟩, -⟩ := member
  obtain ⟨own, formed, -⟩ := listed.prune now id o
    (Std.ExtTreeMap.mem_toList_iff_getElem?_eq_some.mp found)
  exact ⟨own, formed⟩

end Listed

/-- The live offers are known under their identifiers, and the fill states are sound
for everything handed out and not given back. -/
structure Log.Sound (V : Primitives) (known : Offer → Prop) (log : Log) : Prop where
  offers : ∀ id o, log.book.offers[id]? = some o → known o ∧ o.WellFormed ∧ o.id V = id
  fills : Swapbook.Sound V known log.book.fills (log.live + log.committed)

namespace Log.Sound

variable {V : Primitives} {known : Offer → Prop} {log : Log}

theorem prune (sound : log.Sound V known) (now : Int) :
    Log.Sound V known { log with book := log.book.pruneLocked now } :=
  ⟨fun id o live => sound.offers id o (pruned live), sound.fills⟩

theorem add (sound : log.Sound V known) (verifyNow now : Int) {o : Offer} (posted : known o)
    (postOnly : Bool) :
    Log.Sound V known { log with book := (log.book.add V verifyNow now o postOnly).2 } := by
  refine ⟨Listed.add sound.offers verifyNow now posted postOnly, ?_⟩
  dsimp only
  rw [add_fills]
  exact sound.fills

theorem cancel (sound : log.Sound V known) (now : Int) (offerID : Hash) (sig : Bytes) :
    Log.Sound V known { log with book := (log.book.cancel V now offerID sig).2 } := by
  refine ⟨Listed.cancel sound.offers now offerID sig, ?_⟩
  dsimp only
  rw [cancel_fills]
  exact sound.fills

theorem offerFill (collisionFree : ∀ o o', known o → known o' → o.id V = o'.id V → o.core = o'.core)
    (sound : log.Sound V known) (now : Int) (id : Hash) :
    Log.Sound V known { log with book := (log.book.offerFill now id).2 } := by
  rw [Book.offerFill]
  dsimp only
  split
  · exact sound.prune now
  · rename_i o live
    obtain ⟨own, formed, rfl⟩ := sound.offers _ o (pruned live)
    exact ⟨(sound.prune now).offers, (sound.fills.fillFor collisionFree own formed).1⟩

theorem side (sound : log.Sound V known) (now now' : Int) (giveAsset getAsset : Bytes) :
    ∀ o ∈ ((log.book.pruneLocked now).matchingOffersLocked V now' giveAsset getAsset).1,
      known o ∧ o.WellFormed :=
  (Listed.prune sound.offers now).side now' giveAsset getAsset

theorem walkFor (collisionFree : ∀ o o', known o → known o' → o.id V = o'.id V → o.core = o'.core)
    (sound : log.Sound V known) (now now' : Int) (giveAsset getAsset : Bytes) (size : UInt64)
    (opts : Book.ReserveOpts) :
    Swapbook.Sound V known (log.book.walkFor V now now' giveAsset getAsset size opts).2.fills
      ((log.book.walkFor V now now' giveAsset getAsset size opts).2.res +
        (log.live + log.committed)) := by
  refine Swapbook.Sound.walk collisionFree opts _ (sound.side now now' giveAsset getAsset) _ ?_
  rw [Multiset.coe_nil, zero_add]
  exact sound.fills

end Log.Sound

/-- A call keeps the book sound, and gives reservations back without a clamp. -/
theorem Log.step_sound {V : Primitives} {known : Offer → Prop}
    (collisionFree : ∀ o o', known o → known o' → o.id V = o'.id V → o.core = o'.core)
    {log next : Log} (sound : log.Sound V known) {op : Op}
    (posted : ∀ o, op.posts = some o → known o) (stepped : log.step V op = some next) :
    next.Sound V known ∧ ∀ fills res, op.restores V log = some (fills, res) →
      Unclamped fills res := by
  cases op with
  | add verifyNow now o postOnly =>
    obtain rfl := Option.some.inj stepped
    exact ⟨sound.add verifyNow now (posted o rfl) postOnly, nofun⟩
  | reserve now now' giveAsset getAsset size opts =>
    have held := sound.walkFor collisionFree now now' giveAsset getAsset size opts
    have live : ∀ id o, (log.book.walkFor V now now' giveAsset getAsset size
        opts).1.offers[id]? = some o → known o ∧ o.WellFormed ∧ o.id V = id :=
      fun id o found => sound.offers id o (pruned (pruned found))
    simp only [Log.step, Book.reserve] at stepped
    simp only [Op.restores]
    cases refused : Book.refuseReserve giveAsset getAsset size with
    | some error =>
      rw [refused] at stepped
      obtain rfl := Option.some.inj stepped
      exact ⟨sound, by simp⟩
    | none =>
      rw [refused] at stepped
      dsimp only at stepped
      generalize log.book.walkFor V now now' giveAsset getAsset size opts = answer
        at stepped held live ⊢
      obtain ⟨book, walk⟩ := answer
      dsimp only at stepped held live ⊢
      by_cases empty : walk.res = []
      · rw [if_pos empty] at stepped
        obtain rfl := Option.some.inj stepped
        rw [empty, Multiset.coe_nil, zero_add] at held
        exact ⟨⟨live, held⟩, by simp [empty]⟩
      rw [if_neg empty] at stepped
      obtain ⟨unclamped, released⟩ := Swapbook.Sound.release walk.res held
      by_cases short : opts.fok ∧ walk.giveIn < size
      · rw [if_pos short] at stepped
        obtain rfl := Option.some.inj stepped
        refine ⟨⟨live, released⟩, fun fills res restored => ?_⟩
        rw [if_pos rfl, if_pos ⟨empty, short⟩] at restored
        obtain ⟨rfl, rfl⟩ := Prod.mk.inj (Option.some.inj restored)
        exact unclamped
      · rw [if_neg short] at stepped
        obtain rfl := Option.some.inj stepped
        refine ⟨⟨live, ?_⟩, fun fills res restored => ?_⟩
        · dsimp only
          rw [add_assoc]
          exact held
        · rw [if_pos rfl, if_neg fun both => short both.2] at restored
          cases restored
  | release res =>
    simp only [Log.step] at stepped
    split_ifs at stepped with held
    obtain rfl := Option.some.inj stepped
    have split : (res : Multiset Reservation) + (log.live - res + log.committed) =
        log.live + log.committed := by
      rw [← add_assoc, add_tsub_cancel_of_le held]
    have fills := sound.fills
    rw [← split] at fills
    obtain ⟨unclamped, released⟩ := Swapbook.Sound.release res fills
    refine ⟨⟨sound.offers, released⟩, fun fills' res' restored => ?_⟩
    obtain ⟨rfl, rfl⟩ := Prod.mk.inj (Option.some.inj restored)
    exact unclamped
  | commit now res giveAsset getAsset swapKey takerPub =>
    simp only [Log.step] at stepped
    split_ifs at stepped with held
    obtain rfl := Option.some.inj stepped
    have moved : log.live - res + ((res : Multiset Reservation) + log.committed) =
        log.live + log.committed := by
      rw [← add_assoc, tsub_add_cancel_of_le held]
    refine ⟨⟨sound.offers, ?_⟩, nofun⟩
    dsimp only
    rw [moved]
    exact sound.fills.confirm res
  | cancel now offerID sig =>
    obtain rfl := Option.some.inj stepped
    exact ⟨sound.cancel now offerID sig, nofun⟩
  | prune now =>
    obtain rfl := Option.some.inj stepped
    exact ⟨sound.prune now, nofun⟩
  | offerFill now id =>
    obtain rfl := Option.some.inj stepped
    exact ⟨sound.offerFill collisionFree now id, nofun⟩

/-- **Runs** keep the log sound. -/
theorem Log.run_sound {V : Primitives} {known : Offer → Prop}
    (collisionFree : ∀ o o', known o → known o' → o.id V = o'.id V → o.core = o'.core)
    {ops : List Op} {log last : Log} (sound : log.Sound V known)
    (posted : ∀ op ∈ ops, ∀ o, op.posts = some o → known o)
    (ran : log.run V ops = some last) : last.Sound V known := by
  induction ops generalizing log with
  | nil =>
    obtain rfl := Option.some.inj ran
    exact sound
  | cons op ops ih =>
    rw [Log.run, Option.bind_eq_some_iff] at ran
    obtain ⟨next, stepped, ran⟩ := ran
    obtain ⟨kept, -⟩ := Log.step_sound collisionFree sound (posted op List.mem_cons_self) stepped
    exact ih kept (fun op member => posted op (List.mem_cons_of_mem _ member)) ran

theorem Op.collisionFree_posts {V : Primitives} {ops : List Op}
    (collisionFree : ∀ op ∈ ops, ∀ op' ∈ ops, ∀ o o', op.posts = some o → op'.posts = some o' →
      o.id V = o'.id V → o.core = o'.core) (o o' : Offer) :
    (∃ op ∈ ops, op.posts = some o) → (∃ op ∈ ops, op.posts = some o') → o.id V = o'.id V →
      o.core = o'.core := by
  rintro ⟨op, member, posts⟩ ⟨op', member', posts'⟩ same
  exact collisionFree op member op' member' o o' posts posts' same

theorem Log.sound_empty {V : Primitives} {known : Offer → Prop} : Log.Sound V known {} :=
  ⟨by simp, by simp, by simp, by simp, by simp⟩

theorem Log.sound_of_run {V : Primitives} {ops : List Op}
    (collisionFree : ∀ op ∈ ops, ∀ op' ∈ ops, ∀ o o', op.posts = some o → op'.posts = some o' →
      o.id V = o'.id V → o.core = o'.core)
    {log : Log} (ran : Log.run V {} ops = some log) :
    log.Sound V fun o => ∃ op ∈ ops, op.posts = some o :=
  Log.run_sound (Op.collisionFree_posts collisionFree) Log.sound_empty
    (fun op member _ posts => ⟨op, member, posts⟩) ran

theorem Log.run_append (V : Primitives) (log : Log) (before after : List Op) :
    log.run V (before ++ after) = (log.run V before).bind fun middle => middle.run V after := by
  induction before generalizing log with
  | nil => rfl
  | cons op before ih =>
    rw [List.cons_append, Log.run, Log.run, Option.bind_assoc]
    exact congrArg _ (funext fun next => ih next)

/-- In every run of the book, what is left of an offer with fill state and what was
reserved and not released add up to the amount its maker asked for, no more was given
out than its maker offered, and at no call of the run was a clamp taken. -/
theorem offers_never_oversold (V : Primitives) (ops : List Op)
    (collisionFree : ∀ op ∈ ops, ∀ op' ∈ ops, ∀ o o', op.posts = some o → op'.posts = some o' →
      o.id V = o'.id V → o.core = o'.core)
    (log : Log) (ran : Log.run V {} ops = some log) :
    (∀ id f, log.book.fills[id]? = some f → ∃ op ∈ ops, ∃ o, op.posts = some o ∧ o.id V = id ∧
      f.remGet.toNat + (pays id (log.live + log.committed)).sum = o.getAmount.toNat ∧
      f.remGve.toNat + (recvs id (log.live + log.committed)).sum = o.giveAmount.toNat ∧
      (recvs id (log.live + log.committed)).sum ≤ o.giveAmount.toNat) ∧
    ∀ before op after middle fills res, ops = before ++ op :: after →
      Log.run V {} before = some middle → op.restores V middle = some (fills, res) →
      Unclamped fills res := by
  let known : Offer → Prop := fun o => ∃ op ∈ ops, op.posts = some o
  have distinct := Op.collisionFree_posts collisionFree
  refine ⟨fun id f found => ?_, fun before op after middle fills res split reached restored => ?_⟩
  · have sound := Log.sound_of_run collisionFree ran
    obtain ⟨o, ⟨op, member, posts⟩, -, same, get, give⟩ := sound.fills.backed id f found
    have paid := sound.fills.paid id f found
    have received := sound.fills.received id f found
    rw [get] at paid
    rw [give] at received
    exact ⟨op, member, o, posts, same, paid, received, by omega⟩
  · have early : ∀ op ∈ before, ∀ o, op.posts = some o → known o :=
      fun op member o posts => ⟨op, by rw [split]; exact List.mem_append_left _ member, posts⟩
    have sound := Log.run_sound distinct Log.sound_empty early reached
    rw [split, Log.run_append, reached, Option.bind_some, Log.run, Option.bind_eq_some_iff] at ran
    obtain ⟨next, stepped, -⟩ := ran
    have posted : ∀ o, op.posts = some o → known o := fun o posts =>
      ⟨op, by rw [split]; exact List.mem_append_right _ List.mem_cons_self, posts⟩
    exact (Log.step_sound distinct sound posted stepped).2 fills res restored

/-- A hash that leaves its input readable, and signatures that always verify. -/
def toyPrimitives : Primitives :=
  { Testnet.primitives fun bytes => 0 :: 0 :: bytes with verifyFull := fun _ _ _ => true }

/-- Ten OBX for seven XNO. -/
def toyOffer : Offer where
  maker := List.replicate 32 1
  giveAsset := ascii "OBX"
  getAsset := ascii "XNO"
  giveAmount := 10
  getAmount := 7
  expiry := 1000
  nonce := 0
  sig := List.replicate 64 1

/-- An offer posted and partly reserved. -/
def toyCalls : List Op :=
  [.add 10 10 toyOffer false, .reserve 11 11 (ascii "XNO") (ascii "OBX") 3 {}]

theorem toyCalls_posts : ∀ op ∈ toyCalls, ∀ o, op.posts = some o → o = toyOffer := by
  simp [toyCalls, Op.posts]

theorem toyCalls_collisionFree : ∀ op ∈ toyCalls, ∀ op' ∈ toyCalls, ∀ o o', op.posts = some o →
    op'.posts = some o' → o.id toyPrimitives = o'.id toyPrimitives → o.core = o'.core := by
  intro op member op' member' o o' posts posts' _
  rw [toyCalls_posts op member o posts, toyCalls_posts op' member' o' posts']

/-- The sample run holds a part of the offer. -/
theorem toyOffer_partly_filled :
    ∃ log f, Log.run toyPrimitives {} toyCalls = some log ∧
      log.book.fills[toyOffer.id toyPrimitives]? = some f ∧ f.remGet = 4 ∧ f.remGve = 6 ∧
      f.remGet.toNat + (pays (toyOffer.id toyPrimitives) (log.live + log.committed)).sum = 7 := by
  have filled : ((Log.run toyPrimitives {} toyCalls).bind fun log =>
      log.book.fills[toyOffer.id toyPrimitives]?.map fun f => (f.remGet, f.remGve)) =
      some (4, 6) := by
    decide +kernel
  obtain ⟨log, ran, filled⟩ := Option.bind_eq_some_iff.mp filled
  obtain ⟨f, found, left⟩ := Option.map_eq_some_iff.mp filled
  obtain ⟨get, give⟩ := Prod.mk.inj left
  obtain ⟨accounts, -⟩ := offers_never_oversold toyPrimitives toyCalls
    toyCalls_collisionFree log ran
  obtain ⟨op, member, o, posts, -, paid, -⟩ := accounts _ f found
  rw [toyCalls_posts op member o posts] at paid
  exact ⟨log, f, ran, found, get, give, paid⟩
end Obscura.Swapbook
