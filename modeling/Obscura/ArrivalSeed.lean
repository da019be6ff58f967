import Obscura.BlockIndex

/-! # The PoW seed on arrival

A block is checked twice for its proof of work: when it arrives, with the seed of the active
chain, and when it is validated, with the seed of its own branch. The two seeds are the same
exactly when the seed block lies at or below the fork.
-/

namespace Obscura

open Wire Tx Checked

/-- The ids from genesis to a block of the tree. -/
def Chain.branchIds (c : Chain) (id : Hash) : List Hash :=
  ((c.pathFrom c.nodes[id]?).map ChainNode.hash).reverse

/-- The height of the last block that two chains have in common, both read from genesis. -/
def forkHeight (active branch : List Hash) : Nat :=
  ((active.zip branch).takeWhile fun pair => pair.1 = pair.2).length - 1

/-- Two lists agree at a place, and have it. -/
def AgreeAt {α : Type} (first second : List α) (i : Nat) : Prop :=
  ∃ value, first[i]? = some value ∧ second[i]? = some value

theorem lt_common_iff {α : Type} [DecidableEq α] {first second : List α} {j : Nat} :
    j < ((first.zip second).takeWhile fun pair => pair.1 = pair.2).length ↔
      ∀ i ≤ j, AgreeAt first second i := by
  induction first generalizing second j with
  | nil =>
    refine ⟨fun inside => absurd inside (by simp), fun agree => ?_⟩
    obtain ⟨value, found, -⟩ := agree 0 (Nat.zero_le j)
    exact absurd found (by simp)
  | cons a first ih =>
    cases second with
    | nil =>
      refine ⟨fun inside => absurd inside (by simp), fun agree => ?_⟩
      obtain ⟨value, -, found⟩ := agree 0 (Nat.zero_le j)
      exact absurd found (by simp)
    | cons b second =>
      rw [List.zip_cons_cons]
      by_cases same : a = b
      · rw [List.takeWhile_cons_of_pos (by simpa using same), List.length_cons]
        constructor
        · intro inside i before
          cases i with
          | zero => exact ⟨a, rfl, by rw [same]; rfl⟩
          | succ i =>
            have below := Nat.lt_of_succ_lt_succ (lt_of_le_of_lt before inside)
            exact (@ih second i).mp below i le_rfl
        · intro agree
          cases j with
          | zero => exact Nat.succ_pos _
          | succ j =>
            exact Nat.succ_lt_succ
              ((@ih second j).mpr fun i before => agree (i + 1) (Nat.succ_le_succ before))
      · rw [List.takeWhile_cons_of_neg (by simpa using same)]
        refine ⟨fun inside => absurd inside (Nat.not_lt_zero j), fun agree => ?_⟩
        obtain ⟨value, first, second⟩ := agree 0 (Nat.zero_le j)
        exact absurd ((Option.some.inj first).trans (Option.some.inj second).symm) same

section Tree

variable {V : Primitives} {heard : Block → Prop} {c : Chain}

/-- Consecutive vertices of a path are child and parent. -/
theorem Indexed.path_links (indexed : Indexed V heard c) {n : ChainNode}
    (vertex : Vertex V heard c.nodes n) {k : Nat} {m p : ChainNode}
    (child : (c.pathFrom (some n))[k]? = some m)
    (parent : (c.pathFrom (some n))[k + 1]? = some p) : p.hash = m.prev := by
  generalize size : n.height = height
  induction height generalizing n k with
  | zero =>
    rw [Chain.pathFrom_zero size] at parent
    exact absurd parent (by simp)
  | succ height ih =>
    obtain ⟨q, found, above⟩ := vertex.parent (by omega)
    obtain ⟨hash, vertex'⟩ := indexed.nodes _ _ found
    rw [Chain.pathFrom_succ found above] at child parent
    cases k with
    | zero =>
      obtain rfl := Option.some.inj child
      have first : (c.pathFrom (some q))[0]? = some q := by
        unfold Chain.pathFrom
        rw [Option.map_some, Option.getD_some, Chain.ancestors]
        rfl
      obtain rfl := Option.some.inj (first.symm.trans parent)
      exact hash
    | succ k => exact ih vertex' child parent (by omega)

variable {id : Hash} {n : ChainNode}

theorem Indexed.length_branchIds (indexed : Indexed V heard c) (found : c.nodes[id]? = some n) :
    (c.branchIds id).length = n.height + 1 := by
  rw [Chain.branchIds, List.length_reverse, List.length_map, found]
  exact (indexed.path (indexed.nodes id n found).2).1

theorem Indexed.branchIds_get (indexed : Indexed V heard c) (found : c.nodes[id]? = some n)
    {i : Nat} (inside : i ≤ n.height) :
    ∃ m, (c.pathFrom (some n))[n.height - i]? = some m ∧ (c.branchIds id)[i]? = some m.hash := by
  obtain ⟨length, -⟩ := indexed.path (indexed.nodes id n found).2
  obtain ⟨m, place⟩ : ∃ m, (c.pathFrom (some n))[n.height - i]? = some m :=
    ⟨_, List.getElem?_eq_getElem (by omega)⟩
  refine ⟨m, place, ?_⟩
  rw [Chain.branchIds, found, List.getElem?_reverse (by rw [List.length_map]; omega),
    List.length_map, length, List.getElem?_map,
    show n.height + 1 - 1 - i = n.height - i by omega, place]
  rfl

theorem Indexed.agree_below (sound : Sound V heard) (indexed : Indexed V heard c)
    (found : c.nodes[id]? = some n) {i : Nat}
    (agree : AgreeAt (c.ledger.headers.map (Header.id V)) (c.branchIds id) i) {j : Nat}
    (below : j ≤ i) : AgreeAt (c.ledger.headers.map (Header.id V)) (c.branchIds id) j := by
  have vertex := (indexed.nodes id n found).2
  have length := indexed.length_branchIds found
  obtain ⟨gap, rfl⟩ := Nat.exists_eq_add_of_le below
  induction gap with
  | zero => exact agree
  | succ gap ih =>
    refine ih ?_ (by omega)
    obtain ⟨value, active, branch⟩ := agree
    obtain ⟨inside, -⟩ := List.getElem?_eq_some_iff.mp branch
    rw [length] at inside
    obtain ⟨m, atPlace, same⟩ := indexed.branchIds_get found (i := j + (gap + 1)) (by omega)
    obtain ⟨p, atParent, sameParent⟩ := indexed.branchIds_get found (i := j + gap) (by omega)
    obtain rfl := Option.some.inj (same.symm.trans branch)
    have link := indexed.path_links vertex atPlace
      (by rw [show n.height - (j + (gap + 1)) + 1 = n.height - (j + gap) by omega]; exact atParent)
    rw [List.getElem?_map, Option.map_eq_some_iff] at active
    obtain ⟨h, place, hash⟩ := active
    obtain ⟨older, olderPlace⟩ : ∃ older, c.ledger.headers[j + gap]? = some older := by
      obtain ⟨inside, -⟩ := List.getElem?_eq_some_iff.mp place
      exact ⟨_, List.getElem?_eq_getElem (by omega)⟩
    have linked := indexed.headers.links (j + gap) older h olderPlace place
    obtain ⟨b, known, header⟩ := indexed.headers.known h (List.mem_of_getElem? place)
    obtain ⟨own, ownKnown, ownId, ownPrev, -⟩ := ((indexed.path vertex).2 _ m atPlace).1.block
    have equal := sound.apart b known own ownKnown (by rw [header, hash, ownId])
    refine ⟨p.hash, ?_, sameParent⟩
    rw [List.getElem?_map, olderPlace, Option.map_some, ← linked, ← header, equal, ownPrev, link]

theorem powSeed_eq_iff {L L' : Ledger} {height : Nat}
    (later : Config.powSeedHeight height ≠ 0)
    (reaches : Config.powSeedHeight height < L'.headers.length) :
    L.powSeed V height = L'.powSeed V height ↔
      AgreeAt (L.headers.map (Header.id V)) (L'.headers.map (Header.id V))
        (Config.powSeedHeight height) := by
  unfold Ledger.powSeed
  rw [if_neg later, if_neg later, ← List.getElem?_map, ← List.getElem?_map]
  have own : (L'.headers.map (Header.id V))[Config.powSeedHeight height]? =
      some ((L'.headers[Config.powSeedHeight height]).id V) := by
    rw [List.getElem?_map, List.getElem?_eq_getElem reaches]
    rfl
  rw [own]
  constructor
  · exact fun active => ⟨_, active, own⟩
  · rintro ⟨value, active, branch⟩
    rw [active, ← branch, own]

end Tree

/-- **Seed agreement.** In every reachable state, for a block whose parent is in the tree: the
seed it is checked with on arrival is the seed of its own branch exactly when the seed height
is at most the fork height. Then validation of its header never fails after a rejection on
arrival, and an arrival check that passes has checked the proof of work of its own branch. -/
theorem arrival_seed_iff {V : Primitives} {seen : List Block} {c : Chain}
    (run : Reachable V seen c) (sound : Sound V (Heard V seen)) {b : Block} {parent : ChainNode}
    (found : c.nodes[b.header.prevHash]? = some parent)
    (next : b.header.height = parent.height + 1) {L : Ledger}
    (own : L.headers.map (Header.id V) = c.branchIds b.header.prevHash) :
    (c.ledger.powSeed V b.header.height = L.powSeed V b.header.height ↔
      Config.powSeedHeight b.header.height ≤
        forkHeight (c.ledger.headers.map (Header.id V)) (c.branchIds b.header.prevHash)) ∧
    (Config.powSeedHeight b.header.height ≤
        forkHeight (c.ledger.headers.map (Header.id V)) (c.branchIds b.header.prevHash) →
      (∀ now tip, headerChecks V now L b.header tip = .ok () →
        c.checkArrival V now b.header = .ok ()) ∧
      ∀ now, c.checkArrival V now b.header = .ok () →
        ∃ seed, L.powSeed V b.header.height = some seed ∧
          V.powMeets (b.header.powHashSeed V seed) b.header.difficulty = true) := by
  have indexed := run.indexed sound
  have length := congrArg List.length own
  rw [List.length_map, indexed.length_branchIds found] at length
  have agrees : c.ledger.powSeed V b.header.height = L.powSeed V b.header.height ↔
      Config.powSeedHeight b.header.height ≤
        forkHeight (c.ledger.headers.map (Header.id V)) (c.branchIds b.header.prevHash) := by
    by_cases first : Config.powSeedHeight b.header.height = 0
    · unfold Ledger.powSeed
      rw [if_pos first, if_pos first, first]
      exact iff_of_true rfl (Nat.zero_le _)
    · have below := powSeedHeight_lt first
      rw [powSeed_eq_iff first (by omega), own]
      have common := @lt_common_iff _ _ (c.ledger.headers.map (Header.id V))
        (c.branchIds b.header.prevHash) (Config.powSeedHeight b.header.height)
      unfold forkHeight
      constructor
      · intro agree
        have inside := common.mpr fun i before => indexed.agree_below sound found agree before
        omega
      · intro above
        exact common.mp (by omega) _ le_rfl
  refine ⟨agrees, fun above => ?_⟩
  have seeds := agrees.mpr above
  obtain ⟨seed, seedFound⟩ : ∃ seed, L.powSeed V b.header.height = some seed := by
    unfold Ledger.powSeed
    dsimp only
    split_ifs with first
    · exact ⟨_, rfl⟩
    · have below := powSeedHeight_lt first
      exact ⟨_, by rw [List.getElem?_eq_getElem (by omega : _ < L.headers.length)]; rfl⟩
  constructor
  · intro now tip accepted
    unfold headerChecks at accepted
    simp only [bind_ok, reject_ok, orReject_ok, exists_const, not_lt, ne_eq, not_not, not_le,
      Bool.not_eq_true, Bool.not_eq_false'] at accepted
    obtain ⟨-, -, positive, notFuture, -, -, seed', seedFound', meets⟩ := accepted
    unfold Chain.checkArrival
    simp only [bind_ok, reject_ok, exists_const, not_lt]
    refine ⟨positive, ?_, notFuture⟩
    rw [seeds, seedFound']
    simp [meets]
  · intro now passed
    unfold Chain.checkArrival at passed
    simp only [bind_ok, reject_ok, exists_const, not_lt] at passed
    obtain ⟨-, meets, -⟩ := passed
    rw [seeds, seedFound] at meets
    exact ⟨seed, seedFound, by simpa using meets⟩

end Obscura
