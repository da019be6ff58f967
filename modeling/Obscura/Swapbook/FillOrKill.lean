import Obscura.Swapbook.Quotes

/-! # Fill or kill

A fill-or-kill request that cannot be filled leaves the book as it was, up to fill states of
offers that nobody has touched: whatever is called later is answered as if the request had not
been made. Reservations may be given back any number of times, in any pieces.
-/

namespace Obscura.Swapbook

open Wire

/-! ## Calls with their answers -/

/-- The calls that read or change a book. -/
inductive Call where
  | keep (op : Op)
  | quote (now : Int) (giveAsset getAsset : Bytes) (giveSize : UInt64)

/-- What a caller sees. -/
inductive Answer where
  | none
  | added (result : Except String Bool)
  | reserved (result : Except Book.ReserveError (List Reservation × UInt64 × UInt64))
  | traded (trade : Trade)
  | cancelled (result : Except String Unit)
  | filled (result : Option (UInt64 × UInt64 × Status))
  | quoted (result : UInt64 × UInt64 × Nat × Bool)

/-- The reservations that a call hands back. -/
def Call.returned : Call → List Reservation
  | .keep (.release res) => res
  | .keep (.commit _ res _ _ _ _) => res
  | _ => []

/-- The offer that a call posts. -/
def Call.posts : Call → Option Offer
  | .keep op => op.posts
  | .quote _ _ _ _ => Option.none

/-- The call reads no clock before the given time. Sweeps take any time. -/
def Call.NotBefore (time : Int) : Call → Prop
  | .keep (.add _ now _ _) => time ≤ now
  | .keep (.reserve now _ _ _ _ _) => time ≤ now
  | .keep (.cancel now _ _) => time ≤ now
  | .keep (.offerFill now _) => time ≤ now
  | .quote now _ _ _ => time ≤ now
  | _ => True

/-- The reservations that an answer hands out. -/
def Answer.issued : Answer → List Reservation
  | .reserved (.ok (res, _, _)) => res
  | _ => []

variable (V : Primitives)

/-- What a call answers, and the book after it. -/
def Call.perform (b : Book) : Call → Answer × Book
  | .keep (.add verifyNow now o postOnly) =>
    (.added (b.add V verifyNow now o postOnly).1, (b.add V verifyNow now o postOnly).2)
  | .keep (.reserve now now' giveAsset getAsset size opts) =>
    (.reserved (b.reserve V now now' giveAsset getAsset size opts).1,
      (b.reserve V now now' giveAsset getAsset size opts).2)
  | .keep (.release res) => (.none, b.releaseReservation res)
  | .keep (.commit now res giveAsset getAsset swapKey takerPub) =>
    (.traded (b.commitTrade now res giveAsset getAsset swapKey takerPub).1,
      (b.commitTrade now res giveAsset getAsset swapKey takerPub).2)
  | .keep (.cancel now offerID sig) =>
    (.cancelled (b.cancel V now offerID sig).1, (b.cancel V now offerID sig).2)
  | .keep (.prune now) => (.none, (b.pruneExpired now).2)
  | .keep (.offerFill now id) => (.filled (b.offerFill now id).1, (b.offerFill now id).2)
  | .quote now giveAsset getAsset giveSize =>
    (.quoted (b.quote V now giveAsset getAsset giveSize).1,
      (b.quote V now giveAsset getAsset giveSize).2)

/-- The book with all the reservations it has ever handed out. -/
structure Desk where
  book : Book := {}
  issued : List Reservation := []

namespace Desk

/-- A call; only what was handed out can be handed back. -/
def step (d : Desk) (call : Call) : Option (Answer × Desk) :=
  if ∀ r ∈ call.returned, r ∈ d.issued then
    let (answer, book) := call.perform V d.book
    some (answer, ⟨book, answer.issued ++ d.issued⟩)
  else
    none

/-- The answers of a run of calls. -/
def run (d : Desk) : List Call → Option (List Answer × Desk)
  | [] => some ([], d)
  | call :: calls =>
    (d.step V call).bind fun (answer, d) =>
      (run d calls).map fun (answers, d) => (answer :: answers, d)

end Desk

/-! ## Fill states -/

/-- The status of a fill state is what its remainders say. -/
structure Fill.Settled (f : Fill) : Prop where
  remGet : f.remGet ≤ f.get
  remGve : f.remGve ≤ f.give
  status : f.status = if f.get ≤ f.remGet ∧ f.give ≤ f.remGve then .opened
    else if f.remGet = 0 ∨ f.remGve = 0 then .filled else .partly

theorem Offer.fresh_settled (o : Offer) : o.fresh.Settled :=
  ⟨UInt64.le_refl _, UInt64.le_refl _, (if_pos ⟨UInt64.le_refl _, UInt64.le_refl _⟩).symm⟩

theorem Fill.restore_settled (f : Fill) (r : Reservation) : (f.restore r).Settled := by
  have clamp : ∀ bound amount : UInt64, (if bound < amount then bound else amount) ≤ bound := by
    intro bound amount
    split_ifs with more
    · exact UInt64.le_refl _
    · exact UInt64.not_lt.mp more
  exact ⟨clamp _ _, clamp _ _, rfl⟩

/-- A confirmed part leaves the fill settled. -/
theorem Fill.confirm_settled {f : Fill} (settled : f.Settled) (get : f.get ≠ 0)
    (give : f.give ≠ 0) : (Book.Fill.confirm f).Settled := by
  obtain ⟨remGet, remGve, status⟩ := settled
  unfold Book.Fill.confirm
  split_ifs with empty less
  · refine ⟨remGet, remGve, ?_⟩
    dsimp only
    rw [if_neg, if_pos empty]
    rintro ⟨allGet, allGive⟩
    rcases empty with none | none
    · exact get (UInt64.le_antisymm (none ▸ allGet) (UInt64.zero_le))
    · exact give (UInt64.le_antisymm (none ▸ allGive) (UInt64.zero_le))
  · refine ⟨remGet, remGve, ?_⟩
    dsimp only
    rw [if_neg, if_neg empty]
    rintro ⟨allGet, allGive⟩
    rcases less with less | less
    · exact UInt64.not_le.mpr less allGet
    · exact UInt64.not_le.mpr less allGive
  · exact ⟨remGet, remGve, status⟩

/-- What a rung leaves of an offer. -/
def Fill.taken (f : Fill) (pay recv : UInt64) : Fill :=
  let recv := if f.remGve < recv then f.remGve else recv
  { f with
    remGet := f.remGet - pay
    remGve := f.remGve - recv
    status := if f.remGet - pay = 0 ∨ f.remGve - recv = 0 then .filled else .partly }

/-- So does a part that is taken. -/
theorem Fill.taken_settled {f : Fill} (settled : f.Settled) {pay recv : UInt64}
    (within : pay ≤ f.remGet) (positive : pay ≠ 0) : (f.taken pay recv).Settled := by
  have less : f.remGet - pay < f.get := by
    have bound := settled.remGet
    have nonzero := UInt64.toNat_inj.not.mpr positive
    rw [UInt64.lt_iff_toNat_lt, UInt64.toNat_sub_of_le _ _ within]
    rw [UInt64.le_iff_toNat_le] at bound within
    rw [UInt64.toNat_zero] at nonzero
    omega
  have part : (if f.remGve < recv then f.remGve else recv) ≤ f.remGve := by
    split_ifs with more
    · exact UInt64.le_refl _
    · exact UInt64.not_lt.mp more
  refine ⟨UInt64.le_of_lt less, ?_, ?_⟩
  · refine UInt64.le_trans ?_ settled.remGve
    change f.remGve - _ ≤ f.remGve
    rw [UInt64.le_iff_toNat_le, UInt64.toNat_sub_of_le _ _ part]
    omega
  · exact (if_neg fun all => UInt64.not_le.mpr less all.1).symm

/-- Giving a rung back undoes it. -/
theorem Fill.restore_taken {f : Fill} (settled : f.Settled) {pay recv : UInt64} (id : Hash)
    (maker : Bytes) :
    (f.taken pay recv).restore
      ⟨id, maker, pay, if f.remGve < recv then f.remGve else recv⟩ = f := by
  have get : f.remGet - pay + pay = f.remGet := UInt64.sub_add_cancel _ _
  have give : ∀ part : UInt64, f.remGve - part + part = f.remGve := fun part =>
    UInt64.sub_add_cancel _ _
  obtain ⟨remGet, remGve, status⟩ := settled
  unfold Fill.restore Fill.taken
  dsimp only
  rw [get, give, if_neg (UInt64.not_lt.mpr remGet), if_neg (UInt64.not_lt.mpr remGve), ← status]

/-! ## Fill states of untouched offers -/

section Grows

variable (known : Offer → Prop)

/-- The second sidecar has more only where an offer is untouched. -/
structure Grows (fills fills' : GoMap Fill) : Prop where
  same : ∀ (id : Hash) (f : Fill), fills[id]? = some f → fills'[id]? = some f
  fresh : ∀ (id : Hash) (f : Fill), fills'[id]? = some f → fills[id]? = some f ∨
    fills[id]? = none ∧ ∃ o, known o ∧ o.WellFormed ∧ o.id V = id ∧ f = o.fresh

variable {V known} {fills fills' : GoMap Fill}

theorem Grows.refl (fills : GoMap Fill) : Grows V known fills fills :=
  ⟨fun _ _ found => found, fun _ _ found => Or.inl found⟩

/-- Growth is transitive. -/
theorem Grows.trans {fills'' : GoMap Fill} (first : Grows V known fills fills')
    (second : Grows V known fills' fills'') : Grows V known fills fills'' := by
  constructor
  · intro id f found
    exact second.same id f (first.same id f found)
  · intro id f found
    rcases second.fresh id f found with found | ⟨absent, untouched⟩
    · exact first.fresh id f found
    · refine Or.inr ⟨?_, untouched⟩
      rw [Option.eq_none_iff_forall_ne_some]
      intro f' found'
      rw [first.same id f' found'] at absent
      cases absent

/-- An entry under both. -/
theorem Grows.insert (grows : Grows V known fills fills') (id : Hash) (f : Fill) :
    Grows V known (fills.insert id f) (fills'.insert id f) := by
  constructor
  · intro other g found
    rw [OrdMap.lookup_insert] at found ⊢
    split_ifs at found ⊢
    · exact found
    · exact grows.same other g found
  · intro other g found
    rw [OrdMap.lookup_insert] at found ⊢
    split_ifs at found ⊢
    · exact Or.inl found
    · exact grows.fresh other g found

theorem Grows.fillFor
    (collisionFree : ∀ o o', known o → known o' → o.id V = o'.id V → o.core = o'.core)
    (grows : Grows V known fills fills') {o : Offer} (listed : known o)
    (formed : o.WellFormed) :
    (fillForLocked fills' (o.id V) o).1 = (fillForLocked fills (o.id V) o).1 ∧
      Grows V known (fillForLocked fills (o.id V) o).2 (fillForLocked fills' (o.id V) o).2 := by
  unfold fillForLocked
  cases found : fills[o.id V]? with
  | some f =>
    rw [grows.same _ _ found]
    exact ⟨rfl, grows⟩
  | none =>
    cases found' : fills'[o.id V]? with
    | none => exact ⟨rfl, grows.insert _ _⟩
    | some f =>
      obtain ⟨made, listed', formed', same, rfl⟩ :=
        ((grows.fresh _ _ found').resolve_left (by rw [found]; exact nofun)).2
      obtain ⟨give, get⟩ :=
        Offer.amounts_of_core formed' formed (collisionFree made o listed' listed same)
      have equal : made.fresh = o.fresh := by rw [Offer.fresh, Offer.fresh, give, get]
      refine ⟨equal, ?_⟩
      have both := grows.insert (o.id V) o.fresh
      have kept : fills'.insert (o.id V) o.fresh = fills' := by
        rw [← equal]
        exact OrdMap.insert_same fills' found'
      rwa [kept] at both

/-- A new fill state extends the sidecar. -/
theorem grows_fillFor (fills : GoMap Fill) {o : Offer} (listed : known o)
    (formed : o.WellFormed) : Grows V known fills (fillForLocked fills (o.id V) o).2 := by
  unfold fillForLocked
  cases found : fills[o.id V]? with
  | some f => exact Grows.refl fills
  | none =>
    constructor
    · intro id f other
      rw [OrdMap.lookup_insert]
      split_ifs with same
      · rw [← same, found] at other
        cases other
      · exact other
    · intro id f other
      rw [OrdMap.lookup_insert] at other
      split_ifs at other with same
      · exact Or.inr ⟨same ▸ found, o, listed, formed, same, (Option.some.inj other).symm⟩
      · exact Or.inl other

/-- A release under both. -/
theorem Grows.release (grows : Grows V known fills fills') (res : List Reservation)
    (held : ∀ r ∈ res, ∃ f, fills[r.offerID]? = some f) :
    Grows V known (releaseLocked fills res) (releaseLocked fills' res) := by
  induction res generalizing fills fills' with
  | nil => exact grows
  | cons r res ih =>
    obtain ⟨f, found⟩ := held r List.mem_cons_self
    rw [releaseLocked, releaseLocked, found, grows.same _ _ found]
    refine ih (grows.insert _ _) fun other member => ?_
    obtain ⟨g, found'⟩ := held other (List.mem_cons_of_mem _ member)
    rw [OrdMap.lookup_insert]
    split_ifs
    · exact ⟨_, rfl⟩
    · exact ⟨g, found'⟩

/-- A confirmation under both. -/
theorem Grows.confirm (grows : Grows V known fills fills') (res : List Reservation)
    (held : ∀ r ∈ res, ∃ f, fills[r.offerID]? = some f) :
    Grows V known (Book.confirmAll fills res) (Book.confirmAll fills' res) := by
  induction res generalizing fills fills' with
  | nil => exact grows
  | cons r res ih =>
    obtain ⟨f, found⟩ := held r List.mem_cons_self
    rw [Book.confirmAll, Book.confirmAll, found, grows.same _ _ found]
    refine ih (grows.insert _ _) fun other member => ?_
    obtain ⟨g, found'⟩ := held other (List.mem_cons_of_mem _ member)
    rw [OrdMap.lookup_insert]
    split_ifs
    · exact ⟨_, rfl⟩
    · exact ⟨g, found'⟩

/-- A walk takes the same on both. -/
theorem Grows.walk
    (collisionFree : ∀ o o', known o → known o' → o.id V = o'.id V → o.core = o'.core)
    (opts : Book.ReserveOpts) (side : List Offer) (listed : ∀ o ∈ side, known o ∧ o.WellFormed)
    (walk : Book.Walk) (grows : Grows V known walk.fills fills') :
    ∃ left, Book.reserveWalk V opts side { walk with fills := fills' } =
        { Book.reserveWalk V opts side walk with fills := left } ∧
      Grows V known (Book.reserveWalk V opts side walk).fills left := by
  induction side generalizing walk fills' with
  | nil => exact ⟨fills', rfl, grows⟩
  | cons o side ih =>
    obtain ⟨own, formed⟩ := listed o List.mem_cons_self
    have rest : ∀ o ∈ side, known o ∧ o.WellFormed :=
      fun o member => listed o (List.mem_cons_of_mem _ member)
    obtain ⟨same, grown⟩ := grows.fillFor collisionFree own formed
    rw [Book.reserveWalk, Book.reserveWalk]
    dsimp only
    rw [same]
    generalize (fillForLocked walk.fills (o.id V) o).1 = f
    generalize (if walk.remaining < f.remGet then walk.remaining else f.remGet) = pay
    split_ifs with done self slippage exhausted nothing worthless
    · exact ⟨fills', rfl, grows⟩
    · exact ih rest walk grows
    · exact ⟨fills', rfl, grows⟩
    · exact ih rest { walk with fills := (fillForLocked walk.fills (o.id V) o).2 } grown
    · exact ih rest { walk with fills := (fillForLocked walk.fills (o.id V) o).2 } grown
    · exact ih rest { walk with fills := (fillForLocked walk.fills (o.id V) o).2 } grown
    · exact ih rest (Book.Walk.take { walk with fills := (fillForLocked walk.fills (o.id V) o).2 }
        (o.id V) o f pay (mulDivFloor pay o.giveAmount o.getAmount)) (grown.insert _ _)

end Grows

/-! ## Undoing a walk -/

section Undo

variable {fills : GoMap Fill} {res : List Reservation} {id : Hash}

theorem releaseLocked_other (apart : id ∉ res.map Reservation.offerID) :
    (releaseLocked fills res)[id]? = fills[id]? := by
  induction res generalizing fills with
  | nil => rfl
  | cons r res ih =>
    rw [List.map_cons, List.mem_cons, not_or] at apart
    rw [releaseLocked]
    cases found : fills[r.offerID]? with
    | none => exact ih apart.2
    | some f =>
      rw [ih apart.2, OrdMap.lookup_insert, if_neg (Ne.symm apart.1)]

theorem releaseLocked_insert (apart : id ∉ res.map Reservation.offerID) (f : Fill) :
    releaseLocked (fills.insert id f) res = (releaseLocked fills res).insert id f := by
  induction res generalizing fills with
  | nil => rfl
  | cons r res ih =>
    rw [List.map_cons, List.mem_cons, not_or] at apart
    rw [releaseLocked, releaseLocked, OrdMap.lookup_insert, if_neg apart.1]
    cases found : fills[r.offerID]? with
    | none => exact ih apart.2
    | some g =>
      dsimp only
      rw [OrdMap.insert_comm fills apart.1, ih apart.2]

/-- A release of one more part. -/
theorem releaseLocked_append (res : List Reservation) (r : Reservation) :
    releaseLocked fills (res ++ [r]) = releaseLocked (releaseLocked fills res) [r] := by
  induction res generalizing fills with
  | nil => rfl
  | cons first res ih =>
    cases found : fills[first.offerID]? with
    | none =>
      have skip : ∀ tail, releaseLocked fills (first :: tail) = releaseLocked fills tail :=
        fun tail => by rw [releaseLocked, found]
      rw [List.cons_append, skip, skip, ih]
    | some f =>
      have once : ∀ tail, releaseLocked fills (first :: tail) =
          releaseLocked (fills.insert first.offerID (f.restore first)) tail :=
        fun tail => by rw [releaseLocked, found]
      rw [List.cons_append, once, once, ih]

theorem fillForLocked_found (fills : GoMap Fill) (id : Hash) (o : Offer) :
    (fillForLocked fills id o).2[id]? = some (fillForLocked fills id o).1 := by
  unfold fillForLocked
  cases found : fills[id]? with
  | some f => exact found
  | none => exact (OrdMap.lookup_insert fills id id o.fresh).trans (if_pos rfl)

theorem releaseLocked_fillFor (apart : id ∉ res.map Reservation.offerID) (o : Offer) :
    releaseLocked (fillForLocked fills id o).2 res =
      (fillForLocked (releaseLocked fills res) id o).2 := by
  unfold fillForLocked
  rw [releaseLocked_other apart]
  cases fills[id]? with
  | some f => rfl
  | none => exact releaseLocked_insert apart o.fresh

/-- Giving back a rung that was just taken. -/
theorem release_take {walk : Book.Walk} {o : Offer} {f : Fill} (found : walk.fills[id]? = some f)
    (settled : f.Settled) (apart : id ∉ walk.res.map Reservation.offerID) (pay recv : UInt64) :
    releaseLocked (walk.take id o f pay recv).fills (walk.take id o f pay recv).res =
      releaseLocked walk.fills walk.res := by
  have kept : (releaseLocked walk.fills walk.res)[id]? = some f := by
    rw [releaseLocked_other apart, found]
  change releaseLocked (walk.fills.insert id (f.taken pay recv)) (walk.res ++
    [⟨id, o.maker, pay, if f.remGve < recv then f.remGve else recv⟩]) = _
  rw [releaseLocked_append, releaseLocked_insert apart, releaseLocked, OrdMap.lookup_insert,
    if_pos rfl]
  dsimp only
  rw [Fill.restore_taken settled, OrdMap.insert_insert, OrdMap.insert_same _ kept]
  rfl

variable {known : Offer → Prop}

/-- Giving everything back that a walk took leaves the sidecar as it was, with
the untouched offers that the walk looked at. -/
theorem release_walk (opts : Book.ReserveOpts) (side : List Offer)
    (listed : ∀ o ∈ side, known o ∧ o.WellFormed) (distinct : (side.map (Offer.id V)).Nodup)
    (settled : ∀ (id : Hash) (f : Fill), fills[id]? = some f → f.Settled) (walk : Book.Walk)
    (undone : Grows V known fills (releaseLocked walk.fills walk.res))
    (apart : ∀ o ∈ side, o.id V ∉ walk.res.map Reservation.offerID) :
    Grows V known fills (releaseLocked (Book.reserveWalk V opts side walk).fills
      (Book.reserveWalk V opts side walk).res) := by
  induction side generalizing walk with
  | nil => exact undone
  | cons o side ih =>
    obtain ⟨own, formed⟩ := listed o List.mem_cons_self
    have rest : ∀ o ∈ side, known o ∧ o.WellFormed :=
      fun o member => listed o (List.mem_cons_of_mem _ member)
    obtain ⟨new, distinct⟩ := List.nodup_cons.mp distinct
    have away := apart o List.mem_cons_self
    have later : ∀ o ∈ side, o.id V ∉ walk.res.map Reservation.offerID :=
      fun o member => apart o (List.mem_cons_of_mem _ member)
    have seeded : (fillForLocked walk.fills (o.id V) o).2[o.id V]? =
        some (fillForLocked walk.fills (o.id V) o).1 := fillForLocked_found walk.fills (o.id V) o
    have released : releaseLocked (fillForLocked walk.fills (o.id V) o).2 walk.res =
        (fillForLocked (releaseLocked walk.fills walk.res) (o.id V) o).2 :=
      releaseLocked_fillFor away o
    have grown : Grows V known fills
        (releaseLocked (fillForLocked walk.fills (o.id V) o).2 walk.res) := by
      rw [released]
      exact undone.trans (grows_fillFor _ own formed)
    rw [Book.reserveWalk]
    dsimp only
    generalize (fillForLocked walk.fills (o.id V) o).1 = f at seeded ⊢
    generalize (if walk.remaining < f.remGet then walk.remaining else f.remGet) = pay
    split_ifs with done self slippage exhausted nothing worthless
    · exact undone
    · exact ih rest distinct walk undone later
    · exact undone
    · exact ih rest distinct { walk with fills := (fillForLocked walk.fills (o.id V) o).2 } grown
        later
    · exact ih rest distinct { walk with fills := (fillForLocked walk.fills (o.id V) o).2 } grown
        later
    · exact ih rest distinct { walk with fills := (fillForLocked walk.fills (o.id V) o).2 } grown
        later
    · have sound : f.Settled := by
        rcases grown.fresh _ _ ((releaseLocked_other away).trans seeded) with old | ⟨-, made⟩
        · exact settled _ _ old
        · obtain ⟨other, -, -, -, rfl⟩ := made
          exact other.fresh_settled
      have undo := @release_take (o.id V)
        { walk with fills := (fillForLocked walk.fills (o.id V) o).2 } o f seeded sound away pay
        (mulDivFloor pay o.giveAmount o.getAmount)
      refine ih rest distinct _ ?_ ?_
      · rw [undo]
        exact grown
      · intro other member
        change _ ∉ (walk.res ++ [_]).map Reservation.offerID
        rw [List.map_append, List.mem_append, not_or]
        refine ⟨later other member, fun same => new ?_⟩
        rw [List.map_singleton, List.mem_singleton] at same
        exact List.mem_map.mpr ⟨other, member, same⟩

end Undo

/-! ## The sidecar of a desk -/

/-- Every fill state is settled and of an offer that asks and gives something, and everything that
was handed out has its fill state. -/
structure Kept (fills : GoMap Fill) (issued : List Reservation) : Prop where
  settled : ∀ (id : Hash) (f : Fill), fills[id]? = some f → f.Settled
  get : ∀ (id : Hash) (f : Fill), fills[id]? = some f → f.get ≠ 0
  give : ∀ (id : Hash) (f : Fill), fills[id]? = some f → f.give ≠ 0
  held : ∀ r ∈ issued, ∃ f, fills[r.offerID]? = some f

namespace Kept

variable {V : Primitives} {fills : GoMap Fill} {issued : List Reservation}

/-- A new fill is kept. -/
theorem insert (kept : Kept fills issued) (id : Hash) {f : Fill} (settled : f.Settled)
    (get : f.get ≠ 0) (give : f.give ≠ 0) : Kept (fills.insert id f) issued := by
  have either : ∀ {id' : Hash} {g : Fill}, (fills.insert id f)[id']? = some g →
      g = f ∨ fills[id']? = some g := by
    intro id' g found
    rw [OrdMap.lookup_insert] at found
    split_ifs at found
    · exact Or.inl (Option.some.inj found).symm
    · exact Or.inr found
  refine ⟨fun id' g found => ?_, fun id' g found => ?_, fun id' g found => ?_, fun r member => ?_⟩
  · rcases either found with rfl | found
    · exact settled
    · exact kept.settled id' g found
  · rcases either found with rfl | found
    · exact get
    · exact kept.get id' g found
  · rcases either found with rfl | found
    · exact give
    · exact kept.give id' g found
  · rw [OrdMap.lookup_insert]
    split_ifs
    · exact ⟨f, rfl⟩
    · exact kept.held r member

theorem fillFor (kept : Kept fills issued) {o : Offer} (formed : o.WellFormed) :
    Kept (fillForLocked fills (o.id V) o).2 issued := by
  rw [fillForLocked]
  cases fills[o.id V]? with
  | some f => exact kept
  | none => exact kept.insert _ o.fresh_settled formed.getAmount formed.giveAmount

theorem release (kept : Kept fills issued) (res : List Reservation) :
    Kept (releaseLocked fills res) issued := by
  induction res generalizing fills with
  | nil => exact kept
  | cons r res ih =>
    rw [releaseLocked]
    cases found : fills[r.offerID]? with
    | none => exact ih kept
    | some f =>
      exact ih (kept.insert _ (f.restore_settled r) (kept.get _ f found) (kept.give _ f found))

/-- A confirmation keeps the fills. -/
theorem confirm (kept : Kept fills issued) (res : List Reservation) :
    Kept (Book.confirmAll fills res) issued := by
  induction res generalizing fills with
  | nil => exact kept
  | cons r res ih =>
    rw [Book.confirmAll]
    cases found : fills[r.offerID]? with
    | none => exact ih kept
    | some f =>
      have get := kept.get _ f found
      have give := kept.give _ f found
      have same : (Book.Fill.confirm f).get = f.get ∧ (Book.Fill.confirm f).give = f.give := by
        rw [Book.Fill.confirm]
        split_ifs <;> exact ⟨rfl, rfl⟩
      refine ih (kept.insert _ (Fill.confirm_settled (kept.settled _ f found) get give) ?_ ?_)
      · rw [same.1]
        exact get
      · rw [same.2]
        exact give

/-- A walk keeps the fills. -/
theorem walk (opts : Book.ReserveOpts) (side : List Offer) (formed : ∀ o ∈ side, o.WellFormed)
    (walk : Book.Walk) (kept : Kept walk.fills (walk.res ++ issued)) :
    Kept (Book.reserveWalk V opts side walk).fills
      ((Book.reserveWalk V opts side walk).res ++ issued) := by
  induction side generalizing walk with
  | nil => exact kept
  | cons o side ih =>
    have rest : ∀ o ∈ side, o.WellFormed := fun o member =>
      formed o (List.mem_cons_of_mem _ member)
    have seeded : Kept (fillForLocked walk.fills (o.id V) o).2 (walk.res ++ issued) :=
      kept.fillFor (formed o List.mem_cons_self)
    have found := fillForLocked_found walk.fills (o.id V) o
    rw [Book.reserveWalk]
    generalize fillForLocked walk.fills (o.id V) o = answer at seeded found ⊢
    obtain ⟨f, fills⟩ := answer
    dsimp only at seeded found ⊢
    have within := smaller_le_right walk.remaining f.remGet
    generalize (if walk.remaining < f.remGet then walk.remaining else f.remGet) = pay at within ⊢
    split_ifs with done self slippage exhausted nothing worthless
    · exact kept
    · exact ih rest walk kept
    · exact kept
    · exact ih rest { walk with fills } seeded
    · exact ih rest { walk with fills } seeded
    · exact ih rest { walk with fills } seeded
    · refine ih rest _ ?_
      have taken : Kept (fills.insert (o.id V) (f.taken pay (mulDivFloor pay o.giveAmount
          o.getAmount))) (walk.res ++ issued) :=
        seeded.insert _ (Fill.taken_settled (seeded.settled _ f found) within nothing)
          (seeded.get _ f found) (seeded.give _ f found)
      refine ⟨taken.settled, taken.get, taken.give, fun r member => ?_⟩
      simp only [Book.Walk.take, List.append_assoc, List.mem_append, List.mem_singleton] at member
      rcases member with old | rfl | old
      · exact taken.held r (List.mem_append_left _ old)
      · exact ⟨_, (OrdMap.lookup_insert _ _ _ _).trans (if_pos rfl)⟩
      · exact taken.held r (List.mem_append_right _ old)

end Kept

/-! ## Books that nobody can tell apart -/

/-- Pruning twice, in either order. -/
theorem pruneLocked_comm (b : Book) (now now' : Int) :
    (b.pruneLocked now).pruneLocked now' = (b.pruneLocked now').pruneLocked now := by
  have same : (b.pruneLocked now).offers.filter (fun _ o => !decide (o.expiry ≤ now')) =
      (b.pruneLocked now').offers.filter fun _ o => !decide (o.expiry ≤ now) := by
    refine Std.ExtTreeMap.ext_getElem? fun {id} => ?_
    simp only [Book.pruneLocked, Std.ExtTreeMap.getElem?_filter', Option.filter_filter]
    refine congrArg (fun keep => Option.filter keep b.offers[id]?) (funext fun o => ?_)
    exact Bool.and_comm _ _
  rw [Book.pruneLocked, same]
  rfl

/-- From some time on the books hold the same offers, and the second has more fill states only where
an offer is untouched. -/
structure Alike (V : Primitives) (known : Offer → Prop) (time : Int) (b b' : Book) : Prop where
  offers : ∀ now, time ≤ now → (b'.pruneLocked now).offers = (b.pruneLocked now).offers
  fills : Grows V known b.fills b'.fills
  trades : b'.trades = b.trades

namespace Alike

variable {V : Primitives} {known : Offer → Prop} {time : Int} {b b' : Book}

theorem of_fills {fills' : GoMap Fill} (grows : Grows V known b.fills fills') :
    Alike V known time b { b with fills := fills' } :=
  ⟨fun _ _ => rfl, grows, rfl⟩

theorem pruned (alike : Alike V known time b b') {now : Int} (later : time ≤ now) :
    b'.pruneLocked now = { b.pruneLocked now with fills := b'.fills } := by
  calc b'.pruneLocked now = ⟨(b'.pruneLocked now).offers, b'.fills, b'.trades⟩ := rfl
    _ = ⟨(b.pruneLocked now).offers, b'.fills, b.trades⟩ := by
        rw [alike.offers now later, alike.trades]

/-- Alike books answer a post alike. -/
theorem add (alike : Alike V known time b b') (verifyNow : Int) {now : Int} (later : time ≤ now)
    (o : Offer) (postOnly : Bool) :
    (b'.add V verifyNow now o postOnly).1 = (b.add V verifyNow now o postOnly).1 ∧
      Alike V known time (b.add V verifyNow now o postOnly).2
        (b'.add V verifyNow now o postOnly).2 := by
  have grows : Grows V known (b.pruneLocked now).fills b'.fills := alike.fills
  rw [Book.add, Book.add, Book.addLocked, Book.addLocked, alike.pruned later]
  generalize b.pruneLocked now = c at grows
  have count : Book.countMakerLocked { c with fills := b'.fills } o.maker =
      c.countMakerLocked o.maker := rfl
  have crosses : Book.crossesLocked { c with fills := b'.fills } o = c.crossesLocked o := rfl
  dsimp only
  rw [count, crosses]
  split_ifs
  · exact ⟨rfl, alike⟩
  · exact ⟨rfl, alike⟩
  · exact ⟨rfl, of_fills grows⟩
  · exact ⟨rfl, of_fills grows⟩
  · exact ⟨rfl, of_fills grows⟩
  · exact ⟨rfl, of_fills grows⟩
  · exact ⟨rfl, of_fills (b := { c with offers := c.offers.insert (o.id V) o }) grows⟩

/-- They answer a withdrawal alike. -/
theorem cancel (alike : Alike V known time b b') {now : Int} (later : time ≤ now) (offerID : Hash)
    (sig : Bytes) :
    (b'.cancel V now offerID sig).1 = (b.cancel V now offerID sig).1 ∧
      Alike V known time (b.cancel V now offerID sig).2 (b'.cancel V now offerID sig).2 := by
  have grows : Grows V known (b.pruneLocked now).fills b'.fills := alike.fills
  rw [Book.cancel, Book.cancel, alike.pruned later]
  generalize b.pruneLocked now = c at grows
  dsimp only
  split_ifs with length
  · exact ⟨rfl, alike⟩
  cases c.offers[offerID]? with
  | none => exact ⟨rfl, of_fills grows⟩
  | some o =>
    dsimp only
    cases V.parseFullSig sig with
    | none => exact ⟨rfl, of_fills grows⟩
    | some fullSig =>
      dsimp only
      split_ifs
      · exact ⟨rfl, of_fills grows⟩
      · exact ⟨rfl, of_fills (b := { c with offers := c.offers.erase offerID }) grows⟩

/-- They answer a quote alike. -/
theorem quote (alike : Alike V known time b b') {now : Int} (later : time ≤ now)
    (giveAsset getAsset : Bytes) (giveSize : UInt64) :
    (b'.quote V now giveAsset getAsset giveSize).1 = (b.quote V now giveAsset getAsset giveSize).1 ∧
      Alike V known time (b.quote V now giveAsset getAsset giveSize).2
        (b'.quote V now giveAsset getAsset giveSize).2 := by
  have grows : Grows V known (b.pruneLocked now).fills b'.fills := alike.fills
  rw [Book.quote, Book.quote, Book.matchingOffersLocked, Book.matchingOffersLocked,
    alike.pruned later]
  split_ifs
  · exact ⟨rfl, alike⟩
  · exact ⟨rfl, of_fills grows⟩

/-- They answer a question for a fill alike. -/
theorem offerFill
    (collisionFree : ∀ o o', known o → known o' → o.id V = o'.id V → o.core = o'.core)
    (alike : Alike V known time b b') (listed : Listed V known b) {now : Int} (later : time ≤ now)
    (id : Hash) :
    (b'.offerFill now id).1 = (b.offerFill now id).1 ∧
      Alike V known time (b.offerFill now id).2 (b'.offerFill now id).2 := by
  have grows : Grows V known (b.pruneLocked now).fills b'.fills := alike.fills
  have live := listed.prune now
  rw [Book.offerFill, Book.offerFill, alike.pruned later]
  generalize b.pruneLocked now = c at grows live
  dsimp only
  cases found : c.offers[id]? with
  | none => exact ⟨rfl, of_fills grows⟩
  | some o =>
    obtain ⟨own, formed, rfl⟩ := live id o found
    obtain ⟨same, grown⟩ := grows.fillFor collisionFree own formed
    dsimp only
    rw [same]
    exact ⟨rfl, of_fills (b := { c with fills := (fillForLocked c.fills (o.id V) o).2 }) grown⟩

/-- They answer a reservation alike. -/
theorem reserve
    (collisionFree : ∀ o o', known o → known o' → o.id V = o'.id V → o.core = o'.core)
    (alike : Alike V known time b b') (listed : Listed V known b) {issued : List Reservation}
    (kept : Kept b.fills issued) {now : Int} (later : time ≤ now) (now' : Int)
    (giveAsset getAsset : Bytes) (size : UInt64) (opts : Book.ReserveOpts) :
    (b'.reserve V now now' giveAsset getAsset size opts).1 =
        (b.reserve V now now' giveAsset getAsset size opts).1 ∧
      Alike V known time (b.reserve V now now' giveAsset getAsset size opts).2
        (b'.reserve V now now' giveAsset getAsset size opts).2 := by
  have side := (listed.prune now).side now' giveAsset getAsset
  have held := (Kept.walk (V := V) opts _ (fun o member => (side o member).2)
    { fills := b.fills, remaining := size } kept).held
  obtain ⟨left, walked, grown⟩ := Grows.walk collisionFree opts _ side
    { fills := b.fills, remaining := size } alike.fills
  have twin : b'.walkFor V now now' giveAsset getAsset size opts =
      ({ (b.walkFor V now now' giveAsset getAsset size opts).1 with fills := b'.fills },
        { (b.walkFor V now now' giveAsset getAsset size opts).2 with fills := left }) := by
    rw [Book.walkFor, alike.pruned later]
    exact Prod.ext rfl walked
  rw [Book.reserve, Book.reserve, twin]
  cases Book.refuseReserve giveAsset getAsset size with
  | some error => exact ⟨rfl, alike⟩
  | none =>
    have grown : Grows V known (b.walkFor V now now' giveAsset getAsset size opts).2.fills left :=
      grown
    have held : ∀ r ∈ (b.walkFor V now now' giveAsset getAsset size opts).2.res, ∃ f,
        (b.walkFor V now now' giveAsset getAsset size opts).2.fills[r.offerID]? = some f :=
      fun r member => held r (List.mem_append_left _ member)
    generalize b.walkFor V now now' giveAsset getAsset size opts = answer at grown held ⊢
    obtain ⟨c, walk⟩ := answer
    dsimp only at grown held ⊢
    split_ifs
    · exact ⟨rfl, of_fills (b := { c with fills := walk.fills }) grown⟩
    · exact ⟨rfl, of_fills (b := { c with fills := releaseLocked walk.fills walk.res })
        (grown.release _ held)⟩
    · exact ⟨rfl, of_fills (b := { c with fills := walk.fills }) grown⟩

/-- A call answers the same on both books and leaves two that nobody can tell apart. -/
theorem perform
    (collisionFree : ∀ o o', known o → known o' → o.id V = o'.id V → o.core = o'.core)
    (alike : Alike V known time b b') (listed : Listed V known b) {issued : List Reservation}
    (kept : Kept b.fills issued) {call : Call} (later : call.NotBefore time)
    (returned : ∀ r ∈ call.returned, r ∈ issued) :
    (call.perform V b').1 = (call.perform V b).1 ∧
      Alike V known time (call.perform V b).2 (call.perform V b').2 := by
  have held : ∀ r ∈ call.returned, ∃ f, b.fills[r.offerID]? = some f := fun r member =>
    kept.held r (returned r member)
  cases call with
  | quote now giveAsset getAsset giveSize =>
    obtain ⟨same, left⟩ := alike.quote later giveAsset getAsset giveSize
    exact ⟨congrArg Answer.quoted same, left⟩
  | keep op =>
    cases op with
    | add verifyNow now o postOnly =>
      obtain ⟨same, left⟩ := alike.add verifyNow later o postOnly
      exact ⟨congrArg Answer.added same, left⟩
    | reserve now now' giveAsset getAsset size opts =>
      obtain ⟨same, left⟩ := alike.reserve collisionFree listed kept later now' giveAsset
        getAsset size opts
      exact ⟨congrArg Answer.reserved same, left⟩
    | release res => exact ⟨rfl, alike.offers, alike.fills.release res held, alike.trades⟩
    | commit now res giveAsset getAsset swapKey takerPub =>
      refine ⟨rfl, alike.offers, alike.fills.confirm res held, ?_⟩
      simp only [Call.perform, Book.commitTrade, alike.trades]
    | cancel now offerID sig =>
      obtain ⟨same, left⟩ := alike.cancel later offerID sig
      exact ⟨congrArg Answer.cancelled same, left⟩
    | prune now =>
      refine ⟨rfl, fun now' later => ?_, alike.fills, alike.trades⟩
      simp only [Call.perform, Book.pruneExpired]
      rw [pruneLocked_comm, pruneLocked_comm b, alike.pruned later]
      rfl
    | offerFill now id =>
      obtain ⟨same, left⟩ := alike.offerFill collisionFree listed later id
      exact ⟨congrArg Answer.filled same, left⟩

end Alike

/-! ## Runs of a desk -/

/-- Every call keeps the fills. -/
theorem Kept.answered {b : Book} {call : Call} {V : Primitives} {known : Offer → Prop}
    {issued : List Reservation} (listed : Listed V known b) (kept : Kept b.fills issued) :
    Kept (call.perform V b).2.fills ((call.perform V b).1.issued ++ issued) := by
  cases call with
  | quote now giveAsset getAsset giveSize =>
    have same : (b.quote V now giveAsset getAsset giveSize).2.fills = b.fills := by
      rw [Book.quote]
      split_ifs <;> rfl
    simp only [Call.perform, Answer.issued, List.nil_append, same]
    exact kept
  | keep op =>
    cases op with
    | add verifyNow now o postOnly =>
      simp only [Call.perform, Answer.issued, List.nil_append, add_fills]
      exact kept
    | reserve now now' giveAsset getAsset size opts =>
      have side := (listed.prune now).side now' giveAsset getAsset
      have walked : Kept (b.walkFor V now now' giveAsset getAsset size opts).2.fills
          ((b.walkFor V now now' giveAsset getAsset size opts).2.res ++ issued) :=
        Kept.walk (V := V) opts _ (fun o member => (side o member).2)
          { fills := b.fills, remaining := size } kept
      simp only [Call.perform, Book.reserve]
      cases Book.refuseReserve giveAsset getAsset size with
      | some error => exact kept
      | none =>
        dsimp only
        generalize b.walkFor V now now' giveAsset getAsset size opts = answer at walked ⊢
        obtain ⟨c, walk⟩ := answer
        dsimp only at walked ⊢
        have less : Kept walk.fills issued := ⟨walked.settled, walked.get, walked.give,
          fun r member => walked.held r (List.mem_append_right _ member)⟩
        split_ifs
        · exact less
        · exact less.release walk.res
        · exact walked
    | release res => exact kept.release res
    | commit now res giveAsset getAsset swapKey takerPub => exact kept.confirm res
    | cancel now offerID sig =>
      simp only [Call.perform, Answer.issued, List.nil_append, cancel_fills]
      exact kept
    | prune now => exact kept
    | offerFill now id =>
      have live := listed.prune now
      simp only [Call.perform, Book.offerFill, Answer.issued, List.nil_append]
      cases found : (b.pruneLocked now).offers[id]? with
      | none => exact kept
      | some o =>
        obtain ⟨-, formed, rfl⟩ := live id o found
        exact kept.fillFor formed

/-- Every call keeps the offers listed. -/
theorem Listed.answered {b : Book} {call : Call} {V : Primitives} {known : Offer → Prop}
    (listed : Listed V known b) (posted : ∀ o, call.posts = some o → known o) :
    Listed V known (call.perform V b).2 := by
  cases call with
  | quote now giveAsset getAsset giveSize =>
    simp only [Call.perform, Book.quote]
    split_ifs
    · exact listed
    · exact listed.prune now
  | keep op =>
    cases op with
    | add verifyNow now o postOnly => exact listed.add verifyNow now (posted o rfl) postOnly
    | reserve now now' giveAsset getAsset size opts =>
      have live : Listed V known (b.walkFor V now now' giveAsset getAsset size opts).1 :=
        (listed.prune now).prune now'
      simp only [Call.perform, Book.reserve]
      cases Book.refuseReserve giveAsset getAsset size with
      | some error => exact listed
      | none =>
        dsimp only
        split_ifs
        · exact live
        · exact live
        · exact live
    | release res => exact listed
    | commit now res giveAsset getAsset swapKey takerPub => exact listed
    | cancel now offerID sig => exact listed.cancel now offerID sig
    | prune now => exact listed.prune now
    | offerFill now id =>
      simp only [Call.perform, Book.offerFill]
      cases (b.pruneLocked now).offers[id]? with
      | none => exact listed.prune now
      | some o => exact listed.prune now

namespace Desk

variable {V : Primitives} {known : Offer → Prop}

/-- What holds of a desk that was only ever asked by these calls. -/
structure Sound (V : Primitives) (known : Offer → Prop) (d : Desk) : Prop where
  listed : Listed V known d.book
  kept : Kept d.book.fills d.issued

theorem sound_empty : Sound V known {} :=
  ⟨fun _ _ found => by simp at found, by simp, by simp, by simp, by simp⟩

theorem Sound.step {d d' : Desk} {call : Call} {answer : Answer} (sound : d.Sound V known)
    (posted : ∀ o, call.posts = some o → known o) (stepped : d.step V call = some (answer, d')) :
    d'.Sound V known := by
  rw [Desk.step] at stepped
  split_ifs at stepped with returned
  obtain ⟨rfl, rfl⟩ := Prod.mk.inj (Option.some.inj stepped)
  exact ⟨sound.listed.answered posted, sound.kept.answered sound.listed⟩

/-- **Runs** of calls keep a desk sound. -/
theorem Sound.run {calls : List Call} {d d' : Desk} {answers : List Answer}
    (sound : d.Sound V known) (posted : ∀ call ∈ calls, ∀ o, call.posts = some o → known o)
    (ran : d.run V calls = some (answers, d')) : d'.Sound V known := by
  induction calls generalizing d answers with
  | nil =>
    obtain ⟨rfl, rfl⟩ := Prod.mk.inj (Option.some.inj ran)
    exact sound
  | cons call calls ih =>
    rw [Desk.run, Option.bind_eq_some_iff] at ran
    obtain ⟨⟨answer, next⟩, stepped, ran⟩ := ran
    dsimp only at ran
    obtain ⟨⟨answers', last⟩, rest, same⟩ := Option.map_eq_some_iff.mp ran
    obtain ⟨-, rfl⟩ := Prod.mk.inj same
    exact ih (sound.step (posted call List.mem_cons_self) stepped)
      (fun call member => posted call (List.mem_cons_of_mem _ member)) rest

/-- Two desks that nobody can tell apart give the same answers from then on. -/
theorem run_alike
    (collisionFree : ∀ o o', known o → known o' → o.id V = o'.id V → o.core = o'.core)
    {time : Int} {calls : List Call} {d d' : Desk} (sound : d.Sound V known)
    (alike : Alike V known time d.book d'.book) (issued : d'.issued = d.issued)
    (posted : ∀ call ∈ calls, ∀ o, call.posts = some o → known o)
    (later : ∀ call ∈ calls, call.NotBefore time) :
    (d'.run V calls).map Prod.fst = (d.run V calls).map Prod.fst := by
  induction calls generalizing d d' with
  | nil => rfl
  | cons call calls ih =>
    have first := posted call List.mem_cons_self
    rw [Desk.run, Desk.run]
    by_cases returned : ∀ r ∈ call.returned, r ∈ d.issued
    · have stepped : d.step V call = some ((call.perform V d.book).1,
          ⟨(call.perform V d.book).2, (call.perform V d.book).1.issued ++ d.issued⟩) := by
        rw [Desk.step, if_pos returned]
      have stepped' : d'.step V call = some ((call.perform V d'.book).1,
          ⟨(call.perform V d'.book).2, (call.perform V d'.book).1.issued ++ d'.issued⟩) := by
        rw [Desk.step, issued, if_pos returned]
      obtain ⟨same, left⟩ := alike.perform collisionFree sound.listed sound.kept
        (later call List.mem_cons_self) returned
      have rest : Option.map Prod.fst (Desk.run V ⟨(call.perform V d'.book).2,
            (call.perform V d'.book).1.issued ++ d'.issued⟩ calls) =
          Option.map Prod.fst (Desk.run V ⟨(call.perform V d.book).2,
            (call.perform V d.book).1.issued ++ d.issued⟩ calls) :=
        ih (sound.step first stepped) left (by rw [same, issued])
        (fun call member => posted call (List.mem_cons_of_mem _ member))
        (fun call member => later call (List.mem_cons_of_mem _ member))
      rw [stepped, stepped', Option.bind_some, Option.bind_some, Option.map_map, Option.map_map]
      have both := congrArg (Option.map ((call.perform V d.book).1 :: ·)) rest
      rw [Option.map_map, Option.map_map] at both
      rw [same]
      rw [same] at both
      exact both
    · rw [Desk.step, Desk.step, issued, if_neg returned, if_neg returned]

end Desk

/-! ## Fill or kill -/

theorem reserveWalk_fok (V : Primitives) (opts : Book.ReserveOpts) (fok : Bool) (side : List Offer)
    (walk : Book.Walk) :
    Book.reserveWalk V { opts with fok } side walk = Book.reserveWalk V opts side walk := by
  induction side generalizing walk with
  | nil => rfl
  | cons o side ih => simp only [Book.reserveWalk, ih]

/-- A walk splits the size into what it took and what remains. -/
theorem reserveWalk_size (V : Primitives) (opts : Book.ReserveOpts) (side : List Offer)
    (walk : Book.Walk) (size : UInt64)
    (split : walk.giveIn.toNat + walk.remaining.toNat = size.toNat) :
    (Book.reserveWalk V opts side walk).giveIn.toNat +
      (Book.reserveWalk V opts side walk).remaining.toNat = size.toNat := by
  induction side generalizing walk with
  | nil => exact split
  | cons o side ih =>
    rw [Book.reserveWalk]
    generalize fillForLocked walk.fills (o.id V) o = answer
    obtain ⟨f, fills⟩ := answer
    dsimp only
    have within := smaller_le_left walk.remaining f.remGet
    generalize (if walk.remaining < f.remGet then walk.remaining else f.remGet) = pay at within ⊢
    split_ifs with done self slippage exhausted nothing worthless
    · exact split
    · exact ih walk split
    · exact split
    · exact ih { walk with fills } split
    · exact ih { walk with fills } split
    · exact ih { walk with fills } split
    · refine ih _ ?_
      have bound := size.toNat_lt
      have less := UInt64.le_iff_toNat_le.mp within
      simp only [Book.Walk.take, UInt64.toNat_add, UInt64.toNat_sub_of_le _ _ within]
      omega

theorem alike_of_refused {V : Primitives} {known : Offer → Prop} {b b' : Book}
    {issued : List Reservation} (listed : Listed V known b) (kept : Kept b.fills issued)
    {now now' : Int} (later : now ≤ now') {giveAsset getAsset : Bytes} {size : UInt64}
    {opts : Book.ReserveOpts} {error : Book.ReserveError}
    (refused : b.reserve V now now' giveAsset getAsset size opts = (.error error, b')) :
    Alike V known now' b b' := by
  have side := (listed.prune now).side now' giveAsset getAsset
  have distinct := side_distinct (V := V) (b := b.pruneLocked now)
    (fun id o found => (listed.prune now id o found).2.2) now' giveAsset getAsset
  have undone := release_walk V opts _ side distinct kept.settled
    { fills := b.fills, remaining := size } (Grows.refl b.fills) (fun _ _ => List.not_mem_nil)
  have offers : ∀ time, now' ≤ time →
      (((b.pruneLocked now).pruneLocked now').pruneLocked time).offers =
        (b.pruneLocked time).offers := by
    intro time after
    rw [pruneLocked_later _ later, pruneLocked_later _ after]
  rw [Book.reserve] at refused
  cases known' : Book.refuseReserve giveAsset getAsset size with
  | some error' =>
    rw [known'] at refused
    obtain ⟨-, rfl⟩ := Prod.mk.inj refused
    exact ⟨fun _ _ => rfl, Grows.refl _, rfl⟩
  | none =>
    rw [known'] at refused
    have released : Grows V known b.fills
        (releaseLocked (b.walkFor V now now' giveAsset getAsset size opts).2.fills
          (b.walkFor V now now' giveAsset getAsset size opts).2.res) := undone
    have book : (b.walkFor V now now' giveAsset getAsset size opts).1 =
        (b.pruneLocked now).pruneLocked now' := rfl
    generalize b.walkFor V now now' giveAsset getAsset size opts = answer
      at refused released book
    obtain ⟨c, walk⟩ := answer
    dsimp only at refused released book
    subst book
    split_ifs at refused with empty short
    · obtain ⟨-, rfl⟩ := Prod.mk.inj refused
      rw [empty] at released
      exact ⟨offers, released, rfl⟩
    · obtain ⟨-, rfl⟩ := Prod.mk.inj refused
      exact ⟨offers, released, rfl⟩
    · cases (Prod.mk.inj refused).1

theorem reserve_fok_iff (V : Primitives) (b : Book) (now now' : Int) (giveAsset getAsset : Bytes)
    (size : UInt64) (opts : Book.ReserveOpts) :
    (∃ taken, (b.reserve V now now' giveAsset getAsset size { opts with fok := true }).1 =
        .ok taken) ↔
      ∃ res getOut, (b.reserve V now now' giveAsset getAsset size { opts with fok := false }).1 =
        .ok (res, getOut, size) := by
  have walks : ∀ fok, b.walkFor V now now' giveAsset getAsset size { opts with fok } =
      b.walkFor V now now' giveAsset getAsset size opts := by
    intro fok
    exact Prod.ext rfl (reserveWalk_fok V opts fok _ _)
  have split : (b.walkFor V now now' giveAsset getAsset size opts).2.giveIn.toNat +
      (b.walkFor V now now' giveAsset getAsset size opts).2.remaining.toNat = size.toNat :=
    reserveWalk_size V opts _ _ size (Nat.zero_add _)
  rw [Book.reserve, Book.reserve, walks true, walks false]
  cases Book.refuseReserve giveAsset getAsset size with
  | some error => simp
  | none =>
    dsimp only
    generalize b.walkFor V now now' giveAsset getAsset size opts = answer at split ⊢
    obtain ⟨c, walk⟩ := answer
    dsimp only at split ⊢
    have whole : ¬ walk.giveIn < size ↔ walk.giveIn = size := by
      rw [UInt64.lt_iff_toNat_lt, ← UInt64.toNat_inj]
      omega
    by_cases empty : walk.res = []
    · simp [empty]
    by_cases short : walk.giveIn < size
    · have less : walk.giveIn ≠ size := fun same => whole.mpr same short
      simp [empty, short, less]
    · simp [empty, whole.mp short]

/-- In every reachable book a reservation that has to fill the size and fails leaves what every
live offer has left, and whatever is called later is answered as if it had not been made; and it
succeeds exactly where the same reservation without that demand fills the whole size. -/
theorem fillOrKill_all_or_nothing (V : Primitives) (calls after : List Call)
    (collisionFree : ∀ call ∈ calls ++ after, ∀ call' ∈ calls ++ after, ∀ o o',
      call.posts = some o → call'.posts = some o' → o.id V = o'.id V → o.core = o'.core)
    (answers : List Answer) (d : Desk) (ran : Desk.run V {} calls = some (answers, d))
    (now now' : Int) (later : now ≤ now') (giveAsset getAsset : Bytes) (size : UInt64)
    (opts : Book.ReserveOpts) (inOrder : ∀ call ∈ after, call.NotBefore now') :
    (∀ error b', d.book.reserve V now now' giveAsset getAsset size { opts with fok := true } =
        (.error error, b') →
      (∀ id o, d.book.offers[id]? = some o →
        (fillForLocked b'.fills id o).1 = (fillForLocked d.book.fills id o).1) ∧
      (Desk.run V ⟨b', d.issued⟩ after).map Prod.fst = (Desk.run V d after).map Prod.fst) ∧
    ((∃ taken, (d.book.reserve V now now' giveAsset getAsset size { opts with fok := true }).1 =
        .ok taken) ↔
      ∃ res getOut, (d.book.reserve V now now' giveAsset getAsset size
        { opts with fok := false }).1 = .ok (res, getOut, size)) := by
  let known : Offer → Prop := fun o => ∃ call ∈ calls ++ after, call.posts = some o
  have distinct : ∀ o o', known o → known o' → o.id V = o'.id V → o.core = o'.core := by
    rintro o o' ⟨call, member, posts⟩ ⟨call', member', posts'⟩ same
    exact collisionFree call member call' member' o o' posts posts' same
  have sound : d.Sound V known := Desk.Sound.run Desk.sound_empty
    (fun call member o posts => ⟨call, List.mem_append_left _ member, posts⟩) ran
  refine ⟨fun error b' refused => ?_,
    reserve_fok_iff V d.book now now' giveAsset getAsset size opts⟩
  have alike := alike_of_refused sound.listed sound.kept later refused
  constructor
  · intro id o live
    obtain ⟨own, formed, rfl⟩ := sound.listed id o live
    exact (alike.fills.fillFor distinct own formed).1
  · exact Desk.run_alike distinct sound alike rfl
      (fun call member o posts => ⟨call, List.mem_append_right _ member, posts⟩) inOrder

/-- Seven XNO cannot be paid once three of the seven that the offer asks for are reserved. -/
theorem toyOffer_not_killed :
    ∃ answers d, Desk.run toyPrimitives {} (toyCalls.map Call.keep) = some (answers, d) ∧
      ((∃ taken, (d.book.reserve toyPrimitives 12 12 (ascii "XNO") (ascii "OBX") 7
          { fok := true }).1 = .ok taken) ↔
        ∃ res getOut, (d.book.reserve toyPrimitives 12 12 (ascii "XNO") (ascii "OBX") 7
          { fok := false }).1 = .ok (res, getOut, 7)) := by
  have possible : (Desk.run toyPrimitives {} (toyCalls.map Call.keep)).isSome = true := by
    decide +kernel
  obtain ⟨⟨answers, d⟩, ran⟩ := Option.isSome_iff_exists.mp possible
  have only : ∀ call ∈ toyCalls.map Call.keep ++ [], ∀ o, call.posts = some o → o = toyOffer := by
    simp [toyCalls, Call.posts, Op.posts]
  exact ⟨answers, d, ran, (fillOrKill_all_or_nothing toyPrimitives (toyCalls.map Call.keep) []
    (fun call member call' member' o o' posts posts' _ => by
      rw [only call member o posts, only call' member' o' posts'])
    answers d ran 12 12 le_rfl (ascii "XNO") (ascii "OBX") 7 {} (List.forall_mem_nil _)).2⟩

end Obscura.Swapbook
