import Obscura.PQLedger

/-! # Conservation in the post-quantum value space

Value enters the post-quantum space by seeds alone and leaves it as fees. Along every run of
seeds with new keys and of accepted blocks, the unspent outputs are those that were created and
not spent (`PQBooks`), what they are worth together with the fees is what was seeded, and no
output is spent twice. The root that a validating node compares with is the one it holds, which
a seed may have left stale; nothing here depends on it. Membership proofs are accepted up to
the size limit of the proof format.
-/

namespace Obscura

open Wire Tx Checked

/-! ## Runs -/

/-- What changes the post-quantum outputs of a node. -/
inductive PQEvent where
  | seed (o : PQOutput)
  | block (b : Block)

/-- The outputs that were created, in the order of creation; events are listed newest first. -/
def pqCreated : List PQEvent → List PQOutput
  | [] => []
  | .seed o :: events => pqCreated events ++ [o]
  | .block b :: events => pqCreated events ++ b.txs.flatMap Transaction.pqOutputs

/-- The outputs that were spent. -/
def pqSpent : List PQEvent → List Bytes
  | [] => []
  | .seed _ :: events => pqSpent events
  | .block b :: events => pqSpent events ++ pqRefsFromTxs b.txs

/-- The sum of the seeded amounts. -/
def pqSeeded : List PQEvent → Nat
  | [] => 0
  | .seed o :: events => pqSeeded events + o.amount.toNat
  | .block _ :: events => pqSeeded events

/-- The fees of the post-quantum transactions that were applied. -/
def pqFeesPaid : List PQEvent → Nat
  | [] => 0
  | .seed _ :: events => pqFeesPaid events
  | .block b :: events => pqFeesPaid events + (b.txs.map pqFee).sum

namespace RootedLedger

/-- `validateBlockLocked` on a node that memoizes its root. -/
def validateBlock (V : Primitives) (c : RootedLedger) (skip : Transaction → Bool) (now : Int)
    (b : Block) : Check Unit :=
  validateBlockAt V c.ledger skip now b (c.stateRootLocked V).1

theorem stateRootLocked_ledger {V : Primitives} (c : RootedLedger) :
    (c.stateRootLocked V).2.ledger = c.ledger := by
  unfold stateRootLocked
  split_ifs
  · rfl
  · rfl

end RootedLedger

/-- The runs of a node from genesis: reads of the root, calls of `SeedPQOutput` with keys never
used before, and blocks that are validated and applied. -/
inductive PQRun (V : Primitives) : List PQEvent → RootedLedger → Prop
  | start : PQRun V [] (.unread (genesisLedger V))
  | read {events : List PQEvent} {c : RootedLedger} (before : PQRun V events c) :
      PQRun V events (c.stateRootLocked V).2
  | refused {events : List PQEvent} {c next : RootedLedger} {o : PQOutput} {error : String}
      (before : PQRun V events c) (called : c.seedPQOutput V o = (.error error, next)) :
      PQRun V events next
  | seed {events : List PQEvent} {c next : RootedLedger} {o : PQOutput}
      (before : PQRun V events c) (called : c.seedPQOutput V o = (.ok (), next))
      (new : o.oneTimeKey ∉ (pqCreated events).map PQOutput.oneTimeKey) :
      PQRun V (.seed o :: events) next
  | block {events : List PQEvent} {c next : RootedLedger} {skip : Transaction → Bool} {now : Int}
      {b : Block} (before : PQRun V events c) (accepted : c.validateBlock V skip now b = .ok ())
      (applied : (c.stateRootLocked V).2.applyBlock V b = (none, next)) :
      PQRun V (.block b :: events) next

/-! ## The books -/

/-- The amounts of the unspent outputs. -/
def pqTotal (utxo : GoMap PQOutput) : Nat := OrdMap.total (fun o => o.amount.toNat) utxo

/-- The maps stand for lists of created outputs and of spent keys. -/
structure PQBooks (V : Primitives) (created : List PQOutput) (spent : List Bytes) (v : PQView) :
    Prop where
  acc : v.acc = PQAccum.retained V (created.map PQOutput.oneTimeKey)
  distinct : (created.map PQOutput.oneTimeKey).Nodup
  index : ∀ (i : Nat) (o : PQOutput), created[i]? = some o →
    v.index[hexstr o.oneTimeKey]? = some (Int64.ofNat i)
  indexed : ∀ k, v.index[k]? ≠ none → ∃ o ∈ created, k = hexstr o.oneTimeKey
  unspent : ∀ k o, v.utxo[k]? = some o →
    ∃ made ∈ created, (k, o) = PQView.entry made ∧ made.oneTimeKey ∉ spent
  present : ∀ made ∈ created, made.oneTimeKey ∉ spent →
    v.utxo[hexstr made.oneTimeKey]? = some (PQView.entry made).2
  once : spent.Nodup
  known : spent ⊆ created.map PQOutput.oneTimeKey

namespace PQBooks

variable {V : Primitives} {created : List PQOutput} {spent : List Bytes} {v : PQView}

theorem empty {roots : GoMap Bool} : PQBooks V [] [] ⟨.new, ∅, ∅, roots⟩ where
  acc := rfl
  distinct := List.nodup_nil
  index _ _ found := by cases found
  indexed _ found := absurd rfl found
  unspent _ _ found := by cases found
  present _ member := absurd member List.not_mem_nil
  once := List.nodup_nil
  known := List.Subset.refl _

theorem len (books : PQBooks V created spent v) : v.acc.len = created.length := by
  rw [books.acc]
  change ((created.map PQOutput.oneTimeKey).map (PQAccum.leafHash V)).length = _
  rw [List.length_map, List.length_map]

theorem free (books : PQBooks V created spent v) {key : Bytes}
    (new : key ∉ created.map PQOutput.oneTimeKey) : v.utxo[hexstr key]? = none := by
  by_contra found
  obtain ⟨o, lookup⟩ := Option.ne_none_iff_exists'.mp found
  obtain ⟨made, member, same, -⟩ := books.unspent _ _ lookup
  have key' := hexstr_injective (congrArg Prod.fst same)
  exact new (key' ▸ List.mem_map_of_mem member)

theorem new_of_unindexed (books : PQBooks V created spent v) {key : Bytes}
    (none : v.index[hexstr key]? = none) : key ∉ created.map PQOutput.oneTimeKey := by
  intro member
  obtain ⟨o, inCreated, rfl⟩ := List.mem_map.mp member
  obtain ⟨i, found⟩ := List.mem_iff_getElem?.mp inCreated
  rw [books.index i o found] at none
  exact Option.some_ne_none _ none

/-- **Adding an output.** -/
theorem add (books : PQBooks V created spent v) {o : PQOutput}
    (new : o.oneTimeKey ∉ created.map PQOutput.oneTimeKey) :
    PQBooks V (created ++ [o]) spent (v.addOutput V o) := by
  have apart : ∀ made ∈ created, hexstr o.oneTimeKey ≠ hexstr made.oneTimeKey := by
    intro made member same
    exact new (hexstr_injective same ▸ List.mem_map_of_mem member)
  constructor
  case acc =>
    change v.acc.add V o.oneTimeKey = _
    rw [books.acc, List.map_append]
    change PQAccum.Accumulator.mk _ _ _ _ = PQAccum.Accumulator.mk (List.map _ (_ ++ _)) _ _ _
    rw [List.map_append]
    rfl
  case distinct =>
    rw [List.map_append]
    refine List.nodup_append.mpr ⟨books.distinct, List.nodup_singleton _, ?_⟩
    intro key member other here same
    rw [List.map_singleton, List.mem_singleton] at here
    exact new (here ▸ same ▸ member)
  case index =>
    intro i made found
    change (v.index.insert _ _)[_]? = _
    rw [OrdMap.lookup_insert]
    by_cases inside : i < created.length
    · rw [List.getElem?_append_left inside] at found
      rw [if_neg (apart made (List.mem_of_getElem? found))]
      exact books.index i made found
    · obtain ⟨bound, last⟩ := List.getElem?_eq_some_iff.mp found
      rw [List.length_append, List.length_singleton] at bound
      obtain rfl : i = created.length := by omega
      rw [List.getElem_concat_length rfl] at last
      rw [← last, if_pos rfl, books.len]
  case indexed =>
    intro k found
    change (v.index.insert _ _)[k]? ≠ none at found
    rw [OrdMap.lookup_insert] at found
    split_ifs at found with same
    · exact ⟨o, by simp, same.symm⟩
    · obtain ⟨made, member, named⟩ := books.indexed k found
      exact ⟨made, List.mem_append_left _ member, named⟩
  case unspent =>
    intro k held found
    change (v.utxo.insert _ _)[k]? = _ at found
    rw [OrdMap.lookup_insert] at found
    split_ifs at found with same
    · refine ⟨o, by simp, ?_, fun gone => new (books.known gone)⟩
      rw [← Option.some.inj found, ← same]
    · obtain ⟨made, member, entry, kept⟩ := books.unspent k held found
      exact ⟨made, List.mem_append_left _ member, entry, kept⟩
  case present =>
    intro made member kept
    change (v.utxo.insert _ _)[_]? = _
    rw [OrdMap.lookup_insert]
    rcases List.mem_append.mp member with old | last
    · rw [PQView.entry, if_neg (apart made old)]
      exact books.present made old kept
    · obtain rfl := List.mem_singleton.mp last
      exact if_pos rfl
  case once => exact books.once
  case known =>
    intro key gone
    rw [List.map_append]
    exact List.mem_append_left _ (books.known gone)

theorem total_add (books : PQBooks V created spent v) {o : PQOutput}
    (new : o.oneTimeKey ∉ created.map PQOutput.oneTimeKey) :
    pqTotal (v.addOutput V o).utxo = pqTotal v.utxo + o.amount.toNat :=
  (OrdMap.total_insert _ v.utxo _ (books.free new)).trans (Nat.add_comm _ _)

/-- The outputs of a block, one after the other. -/
theorem addAll (books : PQBooks V created spent v) {outs : List PQOutput}
    (distinct : (outs.map PQOutput.oneTimeKey).Nodup)
    (new : ∀ o ∈ outs, o.oneTimeKey ∉ created.map PQOutput.oneTimeKey) :
    PQBooks V (created ++ outs) spent (outs.foldl (PQView.addOutput V) v) ∧
      pqTotal (outs.foldl (PQView.addOutput V) v).utxo =
        pqTotal v.utxo + (outs.map fun o => o.amount.toNat).sum ∧
      ∀ k : Bytes, v.utxo[k]? ≠ none →
        (outs.foldl (PQView.addOutput V) v).utxo[k]? = v.utxo[k]? := by
  induction outs generalizing created v with
  | nil =>
    rw [List.append_nil]
    exact ⟨books, rfl, fun _ _ => rfl⟩
  | cons o outs ih =>
    rw [List.map_cons, List.nodup_cons] at distinct
    have here := new o List.mem_cons_self
    obtain ⟨after, total, kept⟩ := ih (books.add here) distinct.2 (by
      intro later member made
      rw [List.map_append] at made
      rcases List.mem_append.mp made with old | last
      · exact new later (List.mem_cons_of_mem _ member) old
      · rw [List.map_singleton, List.mem_singleton] at last
        exact distinct.1 (last ▸ List.mem_map_of_mem member))
    rw [List.append_assoc] at after
    refine ⟨after, ?_, ?_⟩
    · rw [List.foldl_cons, total, books.total_add here, List.map_cons, List.sum_cons]
      omega
    · intro k found
      have apart : hexstr o.oneTimeKey ≠ k := fun same => found (same ▸ books.free here)
      have same : (v.addOutput V o).utxo[k]? = v.utxo[k]? := by
        change (v.utxo.insert _ _)[k]? = _
        rw [OrdMap.lookup_insert, PQView.entry, if_neg apart]
      rw [List.foldl_cons, kept k (same.symm ▸ found), same]

/-- **Spending.** What is spent was created and had not been spent. -/
theorem spend (books : PQBooks V created spent v) {refs : List Bytes} (distinct : refs.Nodup)
    (held : ∀ ref ∈ refs, v.utxo[hexstr ref]? ≠ none) :
    PQBooks V created (spent ++ refs) (v.spend refs) := by
  have facts : ∀ ref ∈ refs, ref ∈ created.map PQOutput.oneTimeKey ∧ ref ∉ spent := by
    intro ref member
    obtain ⟨o, found⟩ := Option.ne_none_iff_exists'.mp (held ref member)
    obtain ⟨made, inCreated, entry, kept⟩ := books.unspent _ _ found
    have same : ref = made.oneTimeKey := hexstr_injective (congrArg Prod.fst entry)
    exact ⟨same ▸ List.mem_map_of_mem inCreated, same ▸ kept⟩
  constructor
  case acc => exact books.acc
  case distinct => exact books.distinct
  case index => exact books.index
  case indexed => exact books.indexed
  case unspent =>
    intro k o found
    change (OrdMap.eraseAll v.utxo _)[k]? = _ at found
    rw [OrdMap.lookup_eraseAll] at found
    split_ifs at found with gone
    obtain ⟨made, member, entry, kept⟩ := books.unspent k o found
    refine ⟨made, member, entry, fun spentNow => ?_⟩
    rcases List.mem_append.mp spentNow with before | now
    · exact kept before
    · have named : k = hexstr made.oneTimeKey := congrArg Prod.fst entry
      exact gone (named ▸ List.mem_map_of_mem now)
  case present =>
    intro made member kept
    change (OrdMap.eraseAll v.utxo _)[_]? = _
    rw [OrdMap.lookup_eraseAll, if_neg]
    · exact books.present made member fun before => kept (List.mem_append_left _ before)
    · intro gone
      obtain ⟨ref, inRefs, same⟩ := List.mem_map.mp gone
      exact kept (List.mem_append_right _ (hexstr_injective same ▸ inRefs))
  case once =>
    refine List.nodup_append.mpr ⟨books.once, distinct, ?_⟩
    intro key before ref now same
    exact (facts ref now).2 (same ▸ before)
  case known =>
    intro key gone
    rcases List.mem_append.mp gone with before | now
    · exact books.known before
    · exact (facts key now).1

theorem recordRoot (books : PQBooks V created spent v) :
    PQBooks V created spent (v.recordRoot V) ∧
      (created ≠ [] → inSet (v.recordRoot V).roots (hexstr (v.acc.root V)) = true) := by
  unfold PQView.recordRoot
  by_cases some : 0 < v.acc.len
  · rw [if_pos some]
    refine ⟨⟨books.acc, books.distinct, books.index, books.indexed, books.unspent, books.present,
      books.once, books.known⟩, fun _ => ?_⟩
    change (v.roots.insert _ true)[_]?.getD false = true
    rw [OrdMap.lookup_insert, if_pos rfl]
    rfl
  · rw [if_neg some]
    refine ⟨books, fun occupied => absurd (List.length_pos_iff.mpr occupied) ?_⟩
    rw [← books.len]
    exact some

end PQBooks

theorem PQView.total_spend {v : PQView} {refs : List Bytes} (distinct : refs.Nodup)
    (held : ∀ ref ∈ refs, v.utxo[hexstr ref]? ≠ none) :
    pqTotal (v.spend refs).utxo + (refs.map fun ref => pqAmount v.utxo (hexstr ref)).sum =
      pqTotal v.utxo := by
  have removed := OrdMap.total_eraseAll (fun o : PQOutput => o.amount.toNat) v.utxo
    (distinct.map hexstr_injective) (by
      intro key member
      obtain ⟨ref, inRefs, rfl⟩ := List.mem_map.mp member
      exact held ref inRefs)
  rw [List.map_map] at removed
  exact removed

/-! ## Along a run -/

section Run

variable {V : Primitives} {events : List PQEvent} {c : RootedLedger}

/-- The invariant of a run. -/
structure PQSound (V : Primitives) (events : List PQEvent) (v : PQView) : Prop where
  books : PQBooks V (pqCreated events) (pqSpent events) v
  anchored : pqCreated events ≠ [] → inSet v.roots (hexstr (v.acc.root V)) = true
  balance : pqTotal v.utxo + pqFeesPaid events = pqSeeded events

/-- The books of the genesis. -/
theorem PQSound.start : PQSound V [] (genesisLedger V).pqView := by
  have view : (genesisLedger V).pqView = ⟨.new, ∅, ∅, ∅⟩ :=
    applyBlock_pqView (V := V) (b := genesisBlock V (.empty V)) (by
      intro t member _
      obtain rfl := List.mem_singleton.mp member
      rfl) genesis_applied.1
  rw [view]
  exact ⟨PQBooks.empty, fun occupied => absurd rfl occupied,
    OrdMap.total_empty (α := Bytes) fun o : PQOutput => o.amount.toNat⟩

theorem seedPQOutput_pqView {L next : Ledger} {o : PQOutput}
    (called : L.seedPQOutput V o = .ok next) :
    next.pqView = (L.pqView.addOutput V o).recordRoot V := by
  unfold Ledger.seedPQOutput at called
  simp only [bind_ok, reject_ok, exists_const, pure_ok] at called
  obtain ⟨-, -, rfl⟩ := called
  exact recordPQRoot_pqView _

/-- **One seed.** -/
theorem PQSound.seed {v : PQView} {o : PQOutput} (sound : PQSound V events v)
    (new : o.oneTimeKey ∉ (pqCreated events).map PQOutput.oneTimeKey) :
    PQSound V (.seed o :: events) ((v.addOutput V o).recordRoot V) := by
  have total := sound.books.total_add new
  obtain ⟨books, anchored⟩ := (sound.books.add new).recordRoot
  have same := PQView.recordRoot_frame V (v.addOutput V o)
  refine ⟨books, ?_, ?_⟩
  · rw [same.1]
    exact anchored
  · rw [same.2, total]
    have before := sound.balance
    change _ + pqFeesPaid events = pqSeeded events + o.amount.toNat
    omega

/-- **One block.** -/
theorem PQSound.block {L : Ledger} {b : Block} (sound : PQSound V events L.pqView)
    (checked : PQBlock L b) :
    PQSound V (.block b :: events) ((((b.txs.flatMap Transaction.pqOutputs).foldl
      (PQView.addOutput V) L.pqView).recordRoot V).spend (pqRefsFromTxs b.txs)) := by
  obtain ⟨added, total, kept⟩ := sound.books.addAll checked.keys fun o member =>
    sound.books.new_of_unindexed (checked.new o member)
  obtain ⟨books, anchored⟩ := added.recordRoot
  set grown := (b.txs.flatMap Transaction.pqOutputs).foldl (PQView.addOutput V) L.pqView
  have same := PQView.recordRoot_frame V grown
  have held : ∀ ref ∈ pqRefsFromTxs b.txs, (grown.recordRoot V).utxo[hexstr ref]? ≠ none := by
    intro ref member
    have unspent := checked.unspent ref member
    rw [same.2, kept _ unspent]
    exact unspent
  refine ⟨books.spend checked.refs held, ?_, ?_⟩
  · change _ → inSet (grown.recordRoot V).roots (hexstr ((grown.recordRoot V).acc.root V)) = true
    rw [same.1]
    exact anchored
  · have spent := PQView.total_spend checked.refs held
    have amounts : ((pqRefsFromTxs b.txs).map fun ref =>
        pqAmount (grown.recordRoot V).utxo (hexstr ref)) =
        (pqRefsFromTxs b.txs).map fun ref => pqAmount L.pqUtxo (hexstr ref) := by
      refine List.map_congr_left fun ref member => ?_
      rw [same.2, pqAmount, kept _ (checked.unspent ref member)]
      rfl
    rw [amounts, checked.balance, same.2, total] at spent
    have before := sound.balance
    change _ + (pqFeesPaid events + (b.txs.map pqFee).sum) = pqSeeded events
    change pqTotal L.pqView.utxo + _ = _ at before
    omega

/-- **Along a run.** -/
theorem PQRun.sound (run : PQRun V events c) : PQSound V events c.ledger.pqView := by
  induction run with
  | start => exact PQSound.start
  | @read events c before ih =>
    rw [RootedLedger.stateRootLocked_ledger]
    exact ih
  | @refused events c next o error before called ih =>
    unfold RootedLedger.seedPQOutput at called
    cases result : c.ledger.seedPQOutput V o with
    | error error =>
      rw [result] at called
      rw [← (Prod.mk.inj called).2]
      exact ih
    | ok L =>
      rw [result] at called
      exact absurd (congrArg Prod.fst called) nofun
  | @seed events c next o before called new ih =>
    unfold RootedLedger.seedPQOutput at called
    cases result : c.ledger.seedPQOutput V o with
    | error error =>
      rw [result] at called
      exact absurd (congrArg Prod.fst called) nofun
    | ok L =>
      rw [result] at called
      rw [← (Prod.mk.inj called).2, seedPQOutput_pqView result]
      exact ih.seed new
  | @block events c next skip now b before accepted applied ih =>
    have checked := validateBlockAt_pq accepted
    unfold RootedLedger.applyBlock at applied
    dsimp only at applied
    have ledger : (c.stateRootLocked V).2.invalidateStateRoot.ledger = c.ledger :=
      c.stateRootLocked_ledger
    rw [ledger] at applied
    cases result : Obscura.applyBlock V c.ledger b with
    | mk failed L =>
      rw [result] at applied
      obtain ⟨rfl, rfl⟩ := Prod.mk.inj applied
      rw [applyBlock_pqView checked.regular result]
      exact ih.block checked

/-- The proof of an unspent output, on a node with few enough outputs. -/
theorem PQSound.pqProve {L : Ledger} (width : ∀ data, (V.blake2b data).length = 32)
    (sound : PQSound V events L.pqView) (few : (pqCreated events).length ≤ PQAccum.maxProofSize)
    {k : Bytes} {o : PQOutput} (unspent : L.pqUtxo[k]? = some o) :
    ∃ wire proof root, L.pqProve V o.oneTimeKey = .ok wire ∧
      PQAccum.parseProof wire = some proof ∧
      PQAccum.verify V root o.oneTimeKey proof = true ∧
      inSet L.pqRoots (hexstr root) = true := by
  obtain ⟨made, member, entry, -⟩ := sound.books.unspent k o unspent
  obtain ⟨i, found⟩ := List.mem_iff_getElem?.mp member
  have key : o.oneTimeKey = made.oneTimeKey := congrArg (fun e => e.2.oneTimeKey) entry
  obtain ⟨inside, here⟩ := List.getElem?_eq_some_iff.mp found
  have length : ((pqCreated events).map PQOutput.oneTimeKey).length = (pqCreated events).length :=
    List.length_map _
  have within : i < ((pqCreated events).map PQOutput.oneTimeKey).length := by rwa [length]
  obtain ⟨proof, proved, verified, parsed⟩ := @PQAccum.prove_verified V width
    ((pqCreated events).map PQOutput.oneTimeKey) i within (by rwa [length])
  have acc : L.pqAcc = PQAccum.retained V ((pqCreated events).map PQOutput.oneTimeKey) :=
    sound.books.acc
  have item : ((pqCreated events).map PQOutput.oneTimeKey)[i] = o.oneTimeKey := by
    rw [List.getElem_map, here, key]
  have index : L.pqIndex[hexstr o.oneTimeKey]? = some (Int64.ofNat i) := by
    rw [key]
    exact sound.books.index i made found
  have position : (Int64.ofNat i).toInt = i := by
    have limit : PQAccum.maxProofSize < 2 ^ 63 := by decide
    exact Int64.toInt_ofNat_of_lt (by omega)
  refine ⟨proof.marshal, proof, L.pqAcc.root V, ?_, parsed, ?_, ?_⟩
  · unfold Ledger.pqProve
    rw [index]
    change (L.pqAcc.prove V (Int64.ofNat i).toInt >>= _) = _
    rw [position, acc, proved]
    rfl
  · rw [acc, ← item]
    exact verified
  · exact sound.anchored (List.ne_nil_of_mem member)

theorem PQRun.seedable (run : PQRun V events c) {o : PQOutput} (width : o.oneTimeKey.length = 32)
    (new : o.oneTimeKey ∉ (pqCreated events).map PQOutput.oneTimeKey) :
    ∃ next, PQRun V (.seed o :: events) next := by
  have unused : c.ledger.pqUtxo[hexstr o.oneTimeKey]? = none := run.sound.books.free new
  obtain ⟨L, seeded⟩ : ∃ L, c.ledger.seedPQOutput V o = .ok L := by
    unfold Ledger.seedPQOutput
    rw [reject, if_neg (not_not.mpr width), reject, if_neg (by rw [unused]; rintro ⟨⟩)]
    exact ⟨_, rfl⟩
  refine ⟨_, @PQRun.seed _ _ _ { c with ledger := L } _ run ?_ new⟩
  unfold RootedLedger.seedPQOutput
  rw [seeded]

end Run

/-- **Conservation.** Along every run of seeds with new keys and of accepted blocks: what the
unspent outputs are worth and the fees that were burned add up to what was seeded; an unspent
output is indexed at the position of its key and was never spent; nothing is spent twice; the
coinbase of an accepted block is paid the classical fees alone; and while the outputs are few
enough for the proof format, the proof of an unspent output is accepted for a known anchor. -/
theorem pq_conservation {V : Primitives} (width : ∀ data, (V.blake2b data).length = 32)
    {events : List PQEvent} {c : RootedLedger} (run : PQRun V events c) :
    pqTotal c.ledger.pqUtxo + pqFeesPaid events = pqSeeded events ∧
    (∀ (k : Bytes) (o : PQOutput), c.ledger.pqUtxo[k]? = some o → k = hexstr o.oneTimeKey ∧
      (∃ i : Nat, ((pqCreated events).map PQOutput.oneTimeKey)[i]? = some o.oneTimeKey ∧
        c.ledger.pqAcc.leaves[i]? = some (PQAccum.leafHash V o.oneTimeKey) ∧
        c.ledger.pqIndex[k]? = some (Int64.ofNat i)) ∧
      o.oneTimeKey ∉ pqSpent events) ∧
    (pqSpent events).Nodup ∧
    (∀ skip now b, c.validateBlock V skip now b = .ok () →
      ∃ cb, b.txs.head? = some cb ∧
        cb.minted.toNat + (c.ledger.blockEconomics cb.referrerTag).2.1.toNat =
          (c.ledger.blockEconomics cb.referrerTag).1.toNat +
            (b.txs.tail.map classicalFee).sum) ∧
    ((pqCreated events).length ≤ PQAccum.maxProofSize → ∀ (k : Bytes) (o : PQOutput),
      c.ledger.pqUtxo[k]? = some o →
      ∃ wire proof root, c.ledger.pqProve V o.oneTimeKey = .ok wire ∧
        PQAccum.parseProof wire = some proof ∧
        PQAccum.verify V root o.oneTimeKey proof = true ∧
        inSet c.ledger.pqRoots (hexstr root) = true) := by
  have sound := run.sound
  refine ⟨sound.balance, ?_, sound.books.once, ?_, ?_⟩
  · intro k o unspent
    obtain ⟨made, member, entry, kept⟩ := sound.books.unspent k o unspent
    obtain ⟨i, found⟩ := List.mem_iff_getElem?.mp member
    have named : k = hexstr made.oneTimeKey := congrArg Prod.fst entry
    have key : o.oneTimeKey = made.oneTimeKey := congrArg (fun e => e.2.oneTimeKey) entry
    have placed : ((pqCreated events).map PQOutput.oneTimeKey)[i]? = some o.oneTimeKey := by
      rw [List.getElem?_map, found, key]
      rfl
    refine ⟨key ▸ named, ⟨i, placed, ?_, ?_⟩, key ▸ kept⟩
    · have acc : c.ledger.pqAcc = _ := sound.books.acc
      rw [acc]
      change (((pqCreated events).map PQOutput.oneTimeKey).map (PQAccum.leafHash V))[i]? = _
      rw [List.getElem?_map, placed]
      rfl
    · rw [named]
      exact sound.books.index i made found
  · intro skip now b accepted
    exact (validateBlockAt_pq accepted).minted
  · intro few k o unspent
    exact sound.pqProve width few unspent

namespace Testnet

/-- The output of a number. -/
def seededOutput (n : Nat) : PQOutput := { oneTimeKey := bigEndian 32 n, amount := 5 }

/-- A run of seeds. -/
theorem seeded_run (n : Nat) (bound : n ≤ 256 ^ 32) :
    ∃ events c, PQRun (primitives checksum) events c ∧
      pqCreated events = (List.range n).map seededOutput ∧ pqSpent events = [] := by
  induction n with
  | zero => exact ⟨[], _, .start, rfl, rfl⟩
  | succ n ih =>
    obtain ⟨events, c, run, created, spent⟩ := ih (by omega)
    have new : (seededOutput n).oneTimeKey ∉ (pqCreated events).map PQOutput.oneTimeKey := by
      rw [created]
      intro member
      obtain ⟨o, inRange, same⟩ := List.mem_map.mp member
      obtain ⟨m, below, rfl⟩ := List.mem_map.mp inRange
      have values := congrArg ofBigEndian same
      change ofBigEndian (bigEndian 32 m) = ofBigEndian (bigEndian 32 n) at values
      rw [ofBigEndian_bigEndian, ofBigEndian_bigEndian] at values
      have small := List.mem_range.mp below
      rw [Nat.mod_eq_of_lt (by omega), Nat.mod_eq_of_lt (by omega)] at values
      omega
    obtain ⟨next, seeded⟩ := run.seedable (o := seededOutput n) (length_bigEndian 32 n) new
    refine ⟨_, next, seeded, ?_, spent⟩
    rw [pqCreated, created, List.range_succ, List.map_append]
    rfl

end Testnet

namespace Testnet

/-- The test network with hybrid signatures: the second one shows what is signed. -/
def hybridNet : Primitives :=
  { primitives checksum with hybridVerify := fun _ _ _ ctx sig => sig.wots == ctx }

/-- The output that is seeded, under the key of two halves. -/
def hybridOutput : PQOutput where
  oneTimeKey := pqHybridKey hybridNet (bigEndian 32 1) (bigEndian 32 2)
  amount := 10_000_000

/-- The node after the seed. -/
def seededNode : RootedLedger :=
  (RootedLedger.seedPQOutput hybridNet (.unread (genesisLedger hybridNet)) hybridOutput).2

/-- The output is spent to a new key, not signed yet. -/
def unsignedMove : Transaction where
  version := 2
  pqInputs := [{
    outputRef := hybridOutput.oneTimeKey
    p := bigEndian 32 1
    wotsRoot := bigEndian 32 2
    nullifier := pqNullifierOf hybridNet hybridOutput.oneTimeKey
    anchor := seededNode.ledger.pqAcc.root hybridNet
    membership :=
      ((seededNode.ledger.pqProve hybridNet hybridOutput.oneTimeKey).toOption).getD [] }]
  pqOutputs := [{
    oneTimeKey := bigEndian 32 3
    amount := 8_000_000
    kemCiphertext := List.replicate 1088 0
    viewTag := List.replicate tagSize 0 }]
  fee := 2_000_000

/-- The spend with its signatures. -/
def move : Transaction :=
  let ctx := unsignedMove.coreHash hybridNet
  { unsignedMove with
    pqInputs := unsignedMove.pqInputs.map fun input =>
      { input with hybridSig := bigEndian 4 0 ++ bigEndian 4 ctx.length ++ ctx } }

/-- The block that carries the spend. -/
def moveBlock : Block :=
  let V := hybridNet
  let L := seededNode.ledger
  let prevHash := (L.tip?.map fun tip => tip.id V).getD zeroHash
  let txs := [payout 1 0 (reward L), move]
  let por := answers checksum [] prevHash 1
  { header :=
      { height := 1, prevHash, nonce := 0
        timestamp := genesisTimestamp + 1
        difficulty := L.expectedDifficulty
        merkleRoot := merkleRoot V txs
        accValue := [1]
        accSize := L.acc.size + 1
        nullRoot := L.nullAcc.rootAfter V []
        pqAccRoot := L.pqAcc.rootAfter V [bigEndian 32 3]
        cmRoot := L.cmTree.rootAfter V []
        numTxs := 2
        porRoot := porRootOf V por
        stateRoot := L.stateRoot V }
    txs, por }

set_option maxRecDepth 10000 in
theorem hybridOutput_seeded :
    (RootedLedger.seedPQOutput hybridNet (.unread (genesisLedger hybridNet))
      hybridOutput).1.isOk = true := by
  decide +kernel

set_option maxRecDepth 10000 in
theorem moveBlock_accepted :
    (seededNode.validateBlock hybridNet (fun _ => false) (genesisTimestamp + 1)
      moveBlock).isOk = true := by
  decide +kernel

set_option maxRecDepth 10000 in
theorem moveBlock_applied :
    ((seededNode.stateRootLocked hybridNet).2.applyBlock hybridNet moveBlock).1 = none := by
  decide +kernel

/-- The seed and the block, newest first. -/
def moveEvents : List PQEvent := [.block moveBlock, .seed hybridOutput]

theorem move_run : ∃ c, PQRun hybridNet moveEvents c := by
  obtain ⟨_, seeded⟩ := isOk_iff.mp hybridOutput_seeded
  obtain ⟨_, accepted⟩ := isOk_iff.mp moveBlock_accepted
  have first : PQRun hybridNet [.seed hybridOutput] seededNode :=
    PQRun.start.seed (Prod.ext seeded rfl) List.not_mem_nil
  have called (pair : Option String × RootedLedger) (applied : pair.1 = none) :
      pair = (none, pair.2) := Prod.ext applied rfl
  exact ⟨_, first.block accepted (called _ moveBlock_applied)⟩

end Testnet

open Testnet in
/-- An output that is seeded and spent: what is left and the fee are what was seeded. -/
theorem pq_conservation_of_spend :
    ∃ c, PQRun hybridNet moveEvents c ∧ pqSpent moveEvents = [hybridOutput.oneTimeKey] ∧
      pqTotal c.ledger.pqUtxo + 2_000_000 = 10_000_000 := by
  obtain ⟨c, run⟩ := move_run
  exact ⟨c, run, rfl, (pq_conservation checksum_length run).1⟩

theorem PQAccum.parseProof_oversized {proof : Proof} (large : maxProofSize < proof.size)
    (word : proof.size < 256 ^ 8) : parseProof proof.marshal = none := by
  have index : (putU64 proof.index).length = 8 := length_bigEndian 8 _
  have size : (putU64 proof.size).length = 8 := length_bigEndian 8 _
  have second : ofBigEndian ((proof.marshal.drop 8).take 8) = proof.size := by
    rw [Proof.marshal, List.append_assoc, List.append_assoc, List.drop_left' index,
      List.take_left' size, putU64, ofBigEndian_bigEndian, Nat.mod_eq_of_lt word]
  unfold parseProof
  split_ifs with short
  · rfl
  · rw [second]
    exact if_pos (Or.inr (Or.inl large))

open Testnet in
/-- After one output more than a proof may count, the proof of an unspent output is refused. -/
theorem oversized_pqProve_refused :
    ∃ events c, PQRun (primitives checksum) events c ∧ ∃ (k : Bytes) (o : PQOutput),
      c.ledger.pqUtxo[k]? = some o ∧
      ∃ wire, c.ledger.pqProve (primitives checksum) o.oneTimeKey = .ok wire ∧
        PQAccum.parseProof wire = none := by
  obtain ⟨events, c, run, created, spent⟩ := seeded_run (PQAccum.maxProofSize + 1) (by decide)
  have sound := run.sound
  have count : (pqCreated events).length = PQAccum.maxProofSize + 1 := by
    rw [created, List.length_map, List.length_range]
  have first : (pqCreated events)[0]? = some (seededOutput 0) := by
    rw [created, List.getElem?_map, List.getElem?_range (Nat.succ_pos _)]
    rfl
  have unspent := sound.books.present _ (List.mem_of_getElem? first) (by
    rw [spent]
    exact List.not_mem_nil)
  refine ⟨events, c, run, _, _, unspent, ?_⟩
  have acc : c.ledger.pqAcc = _ := sound.books.acc
  have index : c.ledger.pqIndex[hexstr (seededOutput 0).oneTimeKey]? = some (Int64.ofNat 0) :=
    sound.books.index 0 _ first
  have size : ((pqCreated events).map PQOutput.oneTimeKey).length = PQAccum.maxProofSize + 1 := by
    rw [List.length_map, count]
  obtain ⟨proof, proved, counted⟩ : ∃ proof,
      (PQAccum.retained (primitives checksum) ((pqCreated events).map PQOutput.oneTimeKey)).prove
        (primitives checksum) (0 : Nat) = .ok proof ∧ proof.size = PQAccum.maxProofSize + 1 :=
    ⟨_, PQAccum.prove_retained (by rw [size]; exact Nat.succ_pos _), size⟩
  refine ⟨proof.marshal, ?_, PQAccum.parseProof_oversized ?_ ?_⟩
  · unfold Ledger.pqProve
    change (orReject c.ledger.pqIndex[hexstr (seededOutput 0).oneTimeKey]? _ >>= _) = _
    rw [index]
    change (c.ledger.pqAcc.prove (primitives checksum) (0 : Nat) >>= _) = _
    rw [acc, proved]
    rfl
  · rw [counted]
    exact Nat.lt_succ_self _
  · rw [counted]
    decide

end Obscura
