import Obscura.Block

/-! # Stem and fluff

What a node remembers of the transactions that it flooded: a live set and the generation before
it, rotated at a cap. The calls of a node run in any order: relays of stem transactions, fail-safe
timers, and transactions seen as broadcasts. A transaction is flooded at most once while it is
remembered, and it is remembered through a cap of other transactions (`flood_once`).
-/

namespace Obscura.P2p.Dandelion

/-- The size at which a generation is full. -/
def maxFluffedSet : Nat := 100000

/-- Transactions are known by their hashes. -/
abbrev TxID := Hash

/-- The two generations; the live one lists an id once. -/
structure Fluffed where
  live : List TxID := []
  old : List TxID := []

/-- `fluffedSeenLocked`. -/
def Fluffed.seen (f : Fluffed) (id : TxID) : Bool := f.live.contains id || f.old.contains id

/-- `rememberFluffedLocked`. -/
def Fluffed.remember (f : Fluffed) (id : TxID) : Fluffed :=
  let f := if maxFluffedSet ≤ f.live.length then ⟨[], f.live⟩ else f
  if id ∈ f.live then f else { f with live := id :: f.live }

/-- A transaction between the check of `stemRelay` and what the relay decides on. -/
structure Stem where
  id : TxID
  fluffs : Bool

/-- The armed timers and the relays past their check are in flight. An embargo checks the memory
and then calls `fluff`, which checks it again: the second check decides, so `expire` is one
step. -/
structure Node where
  fluffed : Fluffed := {}
  relays : List Stem := []
  timers : List TxID := []

/-- `relay` is the check of `stemRelay`, with what it read of the epoch's mode: `fluffs` when
Dandelion is off, there is no successor, the successor is the sender, or the mode is fluff. -/
inductive Action where
  | relay (id : TxID) (fluffs : Bool)
  | decide (place : Nat)
  | expire (place : Nat)
  | markFluffed (id : TxID)

namespace Node

/-- `fluff`: the id when it was flooded. -/
def fluff (n : Node) (id : TxID) : Node × Option TxID :=
  if n.fluffed.seen id then (n, none)
  else ({ n with fluffed := n.fluffed.remember id }, some id)

/-- One action, with the transaction that it fluffs. -/
def step (n : Node) : Action → Node × Option TxID
  | .relay id fluffs =>
    if n.fluffed.seen id then (n, none)
    else ({ n with relays := n.relays ++ [⟨id, fluffs⟩] }, none)
  | .decide place =>
    match n.relays[place]? with
    | none => (n, none)
    | some stem =>
      let n := { n with relays := n.relays.eraseIdx place }
      if stem.fluffs then n.fluff stem.id
      else ({ n with timers := n.timers ++ [stem.id] }, none)
  | .expire place =>
    match n.timers[place]? with
    | none => (n, none)
    | some id => { n with timers := n.timers.eraseIdx place }.fluff id
  | .markFluffed id => ({ n with fluffed := n.fluffed.remember id }, none)

/-- The node after a run and the transactions that it flooded, in order. -/
def run (n : Node) : List Action → Node × List TxID
  | [] => (n, [])
  | a :: actions =>
    let out := n.step a
    let rest := run out.1 actions
    (rest.1, out.2.toList ++ rest.2)

end Node

/-! ## Memory -/

namespace Fluffed

/-- An id that `fresh` more transactions cannot displace. -/
def Keeps (f : Fluffed) (id : TxID) (fresh : Nat) : Prop :=
  (id ∈ f.live ∧ fresh ≤ maxFluffedSet) ∨ (id ∈ f.old ∧ fresh + f.live.length ≤ maxFluffedSet)

/-- The memory of a node. -/
def Bounded (f : Fluffed) : Prop :=
  f.live.length ≤ maxFluffedSet ∧ f.old.length ≤ maxFluffedSet

variable {f : Fluffed} {id other : TxID} {fresh : Nat}

theorem Keeps.seen (keeps : f.Keeps id fresh) : f.seen id = true := by
  rcases keeps with ⟨inside, -⟩ | ⟨inside, -⟩ <;> simp [Fluffed.seen, inside]

theorem Bounded.remember (bounded : f.Bounded) : (f.remember id).Bounded := by
  obtain ⟨live, old⟩ := bounded
  unfold Fluffed.remember
  by_cases full : maxFluffedSet ≤ f.live.length
  · rw [if_pos full]
    dsimp only
    rw [if_neg List.not_mem_nil]
    exact ⟨by rw [List.length_singleton]; decide, live⟩
  · rw [if_neg full]
    dsimp only
    split_ifs with present
    · exact ⟨live, old⟩
    · exact ⟨by rw [List.length_cons]; omega, old⟩

theorem keeps_remember (f : Fluffed) (id : TxID) : (f.remember id).Keeps id maxFluffedSet := by
  refine .inl ⟨?_, le_rfl⟩
  unfold Fluffed.remember
  dsimp only
  split_ifs with full present present
  · exact present
  · exact List.mem_cons_self
  · exact present
  · exact List.mem_cons_self

theorem seen_remember (seen : (f.remember id).seen other = true) :
    other = id ∨ f.seen other = true := by
  unfold Fluffed.remember at seen
  simp only [Fluffed.seen, Bool.or_eq_true, List.contains_iff_mem] at seen ⊢
  split_ifs at seen with full present present
  · exact absurd present List.not_mem_nil
  · rcases seen with inside | inside
    · exact .inl (List.mem_singleton.mp inside)
    · exact .inr (.inl inside)
  · exact .inr seen
  · rcases seen with inside | inside
    · exact (List.mem_cons.mp inside).imp_right .inl
    · exact .inr (.inr inside)

/-- Remembering another costs at most one. -/
theorem Keeps.remember (keeps : f.Keeps id (fresh + 1)) : (f.remember other).Keeps id fresh := by
  unfold Fluffed.remember
  by_cases full : maxFluffedSet ≤ f.live.length
  · rw [if_pos full]
    dsimp only
    rw [if_neg List.not_mem_nil]
    rcases keeps with ⟨inside, few⟩ | ⟨inside, few⟩
    · exact .inr ⟨inside, by rw [List.length_singleton]; exact few⟩
    · omega
  · rw [if_neg full]
    dsimp only
    split_ifs with present
    · exact keeps.imp (fun both => ⟨both.1, by omega⟩) fun both => ⟨both.1, by omega⟩
    · refine keeps.imp (fun both => ⟨List.mem_cons_of_mem _ both.1, by omega⟩) fun both =>
        ⟨both.1, ?_⟩
      rw [List.length_cons]
      omega

end Fluffed

/-! ## Runs -/

namespace Node

variable {n : Node} {a : Action} {id : TxID} {fresh : Nat}

/-- The marks among the actions. -/
def marks (actions : List Action) : List TxID :=
  actions.filterMap fun
    | .markFluffed id => some id
    | _ => none

theorem step_memory (n : Node) (a : Action) :
    ((n.step a).1.fluffed = n.fluffed ∧ (n.step a).2 = none ∧ marks [a] = []) ∨
      ∃ id, (n.step a).1.fluffed = n.fluffed.remember id ∧
        (((n.step a).2 = some id ∧ n.fluffed.seen id = false ∧ marks [a] = []) ∨
          ((n.step a).2 = none ∧ marks [a] = [id])) := by
  cases a with
  | relay id fluffs =>
    refine .inl ?_
    unfold step
    dsimp only
    split_ifs <;> exact ⟨rfl, rfl, rfl⟩
  | markFluffed id => exact .inr ⟨id, rfl, .inr ⟨rfl, rfl⟩⟩
  | decide place =>
    cases found : n.relays[place]? with
    | none =>
      rw [step, found]
      exact .inl ⟨rfl, rfl, rfl⟩
    | some stem =>
      simp only [step, found, fluff]
      split_ifs with fluffs seen
      · exact .inl ⟨rfl, rfl, rfl⟩
      · exact .inr ⟨stem.id, rfl, .inl ⟨rfl, Bool.not_eq_true _ ▸ seen, rfl⟩⟩
      · exact .inl ⟨rfl, rfl, rfl⟩
  | expire place =>
    cases found : n.timers[place]? with
    | none =>
      rw [step, found]
      exact .inl ⟨rfl, rfl, rfl⟩
    | some id =>
      simp only [step, found, fluff]
      split_ifs with seen
      · exact .inl ⟨rfl, rfl, rfl⟩
      · exact .inr ⟨id, rfl, .inl ⟨rfl, Bool.not_eq_true _ ▸ seen, rfl⟩⟩

theorem marks_cons (a : Action) (actions : List Action) :
    marks (a :: actions) = marks [a] ++ marks actions := by
  cases a <;> rfl

theorem mem_marks {actions : List Action} : id ∈ marks actions ↔ .markFluffed id ∈ actions := by
  induction actions with
  | nil => exact iff_of_false List.not_mem_nil List.not_mem_nil
  | cons a actions ih =>
    rw [marks_cons, List.mem_append, ih, List.mem_cons]
    cases a <;> simp [marks]

theorem run_bounded (bounded : n.fluffed.Bounded) (actions : List Action) :
    (n.run actions).1.fluffed.Bounded := by
  induction actions generalizing n with
  | nil => exact bounded
  | cons a actions ih =>
    refine ih ?_
    rcases step_memory n a with ⟨same, -⟩ | ⟨id, remembers, -⟩
    · exact same ▸ bounded
    · exact remembers ▸ bounded.remember

theorem run_keeps {actions : List Action} (keeps : n.fluffed.Keeps id fresh)
    (few : (n.run actions).2.length + (marks actions).length ≤ fresh) :
    id ∉ (n.run actions).2 ∧ (n.run actions).1.fluffed.seen id = true := by
  induction actions generalizing n fresh with
  | nil => exact ⟨List.not_mem_nil, keeps.seen⟩
  | cons a actions ih =>
    rw [marks_cons] at few
    simp only [run, List.length_append] at few ⊢
    rcases step_memory n a with ⟨same, silent, unmarked⟩ |
      ⟨other, remembers, ⟨floods, unseen, unmarked⟩ | ⟨silent, marked⟩⟩
    · rw [silent, unmarked] at few
      rw [silent]
      exact ih (same ▸ keeps) (by simpa using few)
    · rw [floods, unmarked] at few
      simp only [Option.toList_some, List.length_cons, List.length_nil] at few
      obtain ⟨left, rfl⟩ : ∃ left, fresh = left + 1 := ⟨fresh - 1, by omega⟩
      obtain ⟨absent, seen⟩ := ih (remembers ▸ keeps.remember) (by omega)
      have differs : id ≠ other := by
        rintro rfl
        exact Bool.false_ne_true (unseen.symm.trans keeps.seen)
      rw [floods]
      exact ⟨by simpa [differs] using absent, seen⟩
    · rw [silent, marked] at few
      simp only [Option.toList_none, List.length_cons, List.length_nil] at few
      obtain ⟨left, rfl⟩ : ∃ left, fresh = left + 1 := ⟨fresh - 1, by omega⟩
      rw [silent]
      exact ih (remembers ▸ keeps.remember) (by omega)

/-- Where a transaction can be: in a relay, under a timer, or flooded or marked by now. -/
def Tracked (n : Node) (told : TxID → Prop) (id : TxID) : Prop :=
  id ∈ n.relays.map Stem.id ∨ id ∈ n.timers ∨ told id

/-- What is flooded or marked once the action is done. -/
def tells (n : Node) (a : Action) (told : TxID → Prop) (id : TxID) : Prop :=
  told id ∨ (n.step a).2 = some id ∨ id ∈ marks [a]

variable {told : TxID → Prop}

theorem seen_step (knows : ∀ id, n.fluffed.seen id = true → told id)
    (seen : (n.step a).1.fluffed.seen id = true) : n.tells a told id := by
  rcases step_memory n a with ⟨same, -⟩ | ⟨other, remembers, why⟩
  · exact .inl (knows id (same ▸ seen))
  · rcases Fluffed.seen_remember (remembers ▸ seen) with rfl | before
    · rcases why with ⟨floods, -⟩ | ⟨-, marked⟩
      · exact .inr (.inl floods)
      · exact .inr (.inr (marked ▸ List.mem_singleton_self _))
    · exact .inl (knows id before)

theorem fluff_tells (knows : ∀ id, n.fluffed.seen id = true → told id) (id : TxID) :
    told id ∨ (n.fluff id).2 = some id := by
  unfold fluff
  split_ifs with seen
  · exact .inl (knows id seen)
  · exact .inr rfl

theorem fluff_relays (n : Node) (id : TxID) : (n.fluff id).1.relays = n.relays := by
  unfold fluff
  split_ifs <;> rfl

theorem fluff_timers (n : Node) (id : TxID) : (n.fluff id).1.timers = n.timers := by
  unfold fluff
  split_ifs <;> rfl

theorem mem_or_mem_eraseIdx {α : Type} {l : List α} {x y : α} {place : Nat} (inside : x ∈ l)
    (found : l[place]? = some y) : x = y ∨ x ∈ l.eraseIdx place := by
  obtain ⟨i, there⟩ := List.mem_iff_getElem?.mp inside
  by_cases same : i = place
  · subst same
    exact .inl (Option.some.inj (there.symm.trans found))
  · exact .inr (List.mem_eraseIdx_iff_getElem?.mpr ⟨i, same, there⟩)

theorem tracked_fluff (knows : ∀ id, n.fluffed.seen id = true → told id) {other : TxID}
    (tracked : n.Tracked told id ∨ id = other) :
    (n.fluff other).1.Tracked (fun id => told id ∨ (n.fluff other).2 = some id) id := by
  rw [Tracked, fluff_relays, fluff_timers]
  rcases tracked with (relayed | timed | known) | rfl
  · exact .inl relayed
  · exact .inr (.inl timed)
  · exact .inr (.inr (.inl known))
  · exact .inr (.inr (fluff_tells knows id))

theorem Tracked.mono {also : TxID → Prop} (tracked : n.Tracked told id)
    (more : told id → also id) : n.Tracked also id :=
  tracked.imp_right (Or.imp_right more)

/-- A transaction that was tracked is tracked after any action. -/
theorem tracked_step (knows : ∀ id, n.fluffed.seen id = true → told id)
    (tracked : n.Tracked told id) : (n.step a).1.Tracked (n.tells a told) id := by
  cases a with
  | markFluffed other => exact Tracked.mono tracked .inl
  | relay other fluffs =>
    simp only [step]
    split_ifs
    · exact tracked.mono .inl
    · refine tracked.imp (fun relayed => ?_) (Or.imp_right .inl)
      rw [List.map_append]
      exact List.mem_append_left _ relayed
  | decide place =>
    cases found : n.relays[place]? with
    | none =>
      simp only [step, found]
      exact tracked.mono .inl
    | some stem =>
      -- the relay is in the place that is taken, or it is as before
      have rest : { n with relays := n.relays.eraseIdx place }.Tracked told id ∨ id = stem.id := by
        rcases tracked with relayed | other
        · obtain ⟨held, inside, rfl⟩ := List.mem_map.mp relayed
          rcases mem_or_mem_eraseIdx inside found with rfl | stays
          · exact .inr rfl
          · exact .inl (.inl (List.mem_map_of_mem stays))
        · exact .inl (.inr other)
      by_cases fluffs : stem.fluffs = true
      · have known := tracked_fluff (n := { n with relays := n.relays.eraseIdx place }) knows rest
        have stepped : n.step (.decide place) =
            { n with relays := n.relays.eraseIdx place }.fluff stem.id := by
          simp only [step, found, fluffs, if_true]
        rw [stepped]
        exact known.mono (Or.imp_right fun floods => .inl (stepped ▸ floods))
      · simp only [step, found, fluffs]
        rcases rest with (relayed | timed | known) | rfl
        · exact .inl relayed
        · exact .inr (.inl (List.mem_append_left _ timed))
        · exact .inr (.inr (.inl known))
        · exact .inr (.inl (List.mem_append_right _ (List.mem_singleton_self _)))
  | expire place =>
    cases found : n.timers[place]? with
    | none =>
      simp only [step, found]
      exact tracked.mono .inl
    | some other =>
      have rest : { n with timers := n.timers.eraseIdx place }.Tracked told id ∨ id = other := by
        rcases tracked with relayed | timed | known
        · exact .inl (.inl relayed)
        · rcases mem_or_mem_eraseIdx timed found with rfl | stays
          · exact .inr rfl
          · exact .inl (.inr (.inl stays))
        · exact .inl (.inr (.inr known))
      have known := tracked_fluff (n := { n with timers := n.timers.eraseIdx place }) knows rest
      have stepped : n.step (.expire place) =
          { n with timers := n.timers.eraseIdx place }.fluff other := by
        simp only [step, found]
      rw [stepped]
      exact known.mono (Or.imp_right fun floods => .inl (stepped ▸ floods))

theorem tracked_relay (knows : ∀ id, n.fluffed.seen id = true → told id) {fluffs : Bool} :
    (n.step (.relay id fluffs)).1.Tracked (n.tells (.relay id fluffs) told) id := by
  unfold step
  dsimp only
  split_ifs with seen
  · exact .inr (.inr (.inl (knows id seen)))
  · exact .inl (by simp)

theorem run_tracked (told : TxID → Prop) (actions : List Action)
    (knows : ∀ id, n.fluffed.seen id = true → told id)
    (handed : n.Tracked told id ∨ ∃ fluffs, Action.relay id fluffs ∈ actions) :
    (n.run actions).1.Tracked
      (fun id => told id ∨ id ∈ (n.run actions).2 ∨ id ∈ marks actions) id := by
  induction actions generalizing n told with
  | nil =>
    rcases handed with tracked | ⟨fluffs, inside⟩
    · exact tracked.mono .inl
    · exact absurd inside List.not_mem_nil
  | cons a actions ih =>
    have next : (n.step a).1.Tracked (n.tells a told) id ∨
        ∃ fluffs, Action.relay id fluffs ∈ actions := by
      rcases handed with tracked | ⟨fluffs, inside⟩
      · exact .inl (tracked_step knows tracked)
      · rcases List.mem_cons.mp inside with rfl | later
        · exact .inl (tracked_relay knows)
        · exact .inr ⟨fluffs, later⟩
    refine (ih _ (fun _ seen => seen_step knows seen) next).mono ?_
    rw [marks_cons]
    simp only [run, tells, List.mem_append, Option.mem_toList]
    tauto

theorem run_append (n : Node) (before after : List Action) :
    n.run (before ++ after) = (((n.run before).1.run after).1,
      (n.run before).2 ++ ((n.run before).1.run after).2) := by
  induction before generalizing n with
  | nil => rfl
  | cons a before ih => simp only [List.cons_append, run, ih, List.append_assoc]

theorem keeps_step (said : (n.step a).2 = some id ∨ a = .markFluffed id) :
    (n.step a).1.fluffed.Keeps id maxFluffedSet := by
  rcases step_memory n a with ⟨-, silent, unmarked⟩ | ⟨other, remembers, why⟩
  · rcases said with floods | rfl
    · cases silent.symm.trans floods
    · cases unmarked
  · have same : id = other := by
      rcases said with floods | rfl
      · rcases why with ⟨some, -⟩ | ⟨none, -⟩
        · exact Option.some.inj (floods.symm.trans some)
        · cases none.symm.trans floods
      · rcases why with ⟨-, -, unmarked⟩ | ⟨-, marked⟩
        · cases unmarked
        · exact (List.cons.inj marked).1
    rw [remembers, same]
    exact Fluffed.keeps_remember _ _

end Node

/-- In every run of a node that starts, in any order of relays, timers and broadcasts: the memory
is bounded; a transaction handed to a relay is in a relay or under a timer until it is flooded or
seen as a broadcast, so none is dropped; and what was flooded or seen as a broadcast is not
flooded again until more than a cap of others were. -/
theorem flood_once (actions : List Action) :
    ((Node.run {} actions).1.fluffed.live.length ≤ maxFluffedSet ∧
      (Node.run {} actions).1.fluffed.old.length ≤ maxFluffedSet) ∧
    (∀ id fluffs, .relay id fluffs ∈ actions →
      id ∈ (Node.run {} actions).1.relays.map Stem.id ∨ id ∈ (Node.run {} actions).1.timers ∨
        id ∈ (Node.run {} actions).2 ∨ .markFluffed id ∈ actions) ∧
    ∀ before a between id, actions = before ++ a :: between →
      ((Node.run {} before).1.step a).2 = some id ∨ a = .markFluffed id →
      let rest := ((Node.run {} before).1.step a).1.run between
      rest.2.length + (Node.marks between).length ≤ maxFluffedSet →
        id ∉ rest.2 ∧ (Node.run {} actions).1.fluffed.seen id = true := by
  refine ⟨Node.run_bounded ⟨Nat.zero_le _, Nat.zero_le _⟩ actions, fun id fluffs inside => ?_, ?_⟩
  · have unseen : ∀ id, ({} : Node).fluffed.seen id = true → False := fun _ seen => by
      simp [Fluffed.seen] at seen
    have tracked := Node.run_tracked (fun _ => False) actions unseen
      (.inr ⟨fluffs, inside⟩)
    refine tracked.imp_right (Or.imp_right fun told => ?_)
    rcases told with none | flooded | marked
    · exact none.elim
    · exact .inl flooded
    · exact .inr (Node.mem_marks.mp marked)
  · rintro before a between id rfl said rest few
    obtain ⟨absent, seen⟩ := Node.run_keeps (Node.keeps_step said) few
    refine ⟨absent, ?_⟩
    rw [Node.run_append]
    exact seen

/-- A transaction flooded in fluff mode that comes back over the stem, with another in between. -/
theorem flood_once_of_echo :
    [1] ∉ (((({} : Node).run [.relay [1] true]).1.step (.decide 0)).1.run
      [.markFluffed [2], .relay [1] true, .decide 0]).2 :=
  ((flood_once _).2.2 [.relay [1] true] (.decide 0) [.markFluffed [2], .relay [1] true, .decide 0]
    [1] rfl (.inl rfl) (by decide)).1

end Obscura.P2p.Dandelion
