import Obscura.MempoolIndex
import Obscura.P2p.PoolConsistency
import Obscura.Transfer

/-! # A block beside the active chain

A node of the network of `Forge` receives sixty empty blocks and then a payment. A block
at height one that lists the payment is stored beside the active chain, unvalidated, and
`AddBlock` returns no error; the payment leaves the pool although nothing on the active
chain conflicts with it.
-/

namespace Obscura.P2p.Relay

open Wire Tx Checked Mempool Forge Testnet

/-! ## The node follows the chain -/

/-- A node with an empty pool whose active chain are forged blocks with the nonce zero. -/
structure Follows (chain : List Block) (c : Chain) : Prop where
  state : Net chain
  ledger : c.ledger = replay net chain
  cold : c.verifiedProofs = ∅
  tip : ((replay net chain).tip?.map fun tip => tip.id net) = some (idAt chain.length 0)
  nonces : ∀ h ∈ (replay net chain).headers, h.nonce = 0
  bestHash : c.bestHash = idAt chain.length 0
  best : ∃ best, c.nodes[idAt chain.length 0]? = some best ∧ best.height = chain.length ∧
    best.work = 64 * (chain.length + 1)
  root : ∃ root, c.nodes[idAt 0 0]? = some root ∧ root.height = 0 ∧ root.work = 64
  ids : ∀ (id : Hash) (node : ChainNode), c.nodes[id]? = some node →
    ∃ k ≤ chain.length, id = idAt k 0
  orphans : c.orphans = ∅
  empty : ∀ b ∈ chain, ∀ t ∈ b.txs, t.isCoinbase = true

section Follow

variable {chain : List Block} {c : Chain}

theorem Follows.tracks (follows : Follows chain c) : Tracks net chain c := by
  refine ⟨follows.ledger, ?_⟩
  rw [follows.cold]
  exact follows.state.chained.cacheRun

theorem Follows.absent (follows : Follows chain c) (small : chain.length < 90) {height nonce : Nat}
    (low : height < 2 ^ 64) (word : nonce < 2 ^ 64) (new : chain.length < height ∨ nonce ≠ 0) :
    c.nodes.contains (idAt height nonce) = false := by
  rw [← Bool.not_eq_true]
  intro present
  obtain ⟨node, found⟩ : ∃ node, c.nodes[idAt height nonce]? = some node := by
    rw [Std.ExtTreeMap.contains_eq_isSome_getElem?] at present
    exact Option.isSome_iff_exists.mp present
  obtain ⟨k, below, same⟩ := follows.ids _ _ found
  obtain ⟨rfl, rfl⟩ := idAt_inj low (by omega) word (by omega) same
  omega

theorem checkArrival_forge (nonce : Nat) (extra : List Transaction) (fees : UInt64) :
    c.checkArrival net (forge nonce extra fees chain).header.timestamp
      (forge nonce extra fees chain).header = .ok () := by
  unfold Chain.checkArrival
  simp only [bind_ok, reject_ok, exists_const]
  refine ⟨Nat.succ_ne_zero 63, ?_, ?_⟩
  · rw [Option.any_eq_true]
    rintro ⟨seed, -, missed⟩
    exact Bool.false_ne_true missed
  · have drift : 0 ≤ Config.maxFutureDriftSeconds := by decide
    omega

theorem remove_empty {V : Primitives} (txs : List Transaction) : remove V {} txs = {} := by
  have none (ids : List Bytes) : deleteAll V {} ids = {} := by
    induction ids with
    | nil => rfl
    | cons id ids ih => exact ih
  unfold remove
  dsimp only
  rw [none, none]

/-- What `addOne` does with the next block of the network. -/
theorem Follows.addOne (follows : Follows chain c) (small : chain.length < 90) (nonce : Nat)
    (word : nonce < 2 ^ 64) (extra : List Transaction) (fees : UInt64) (parallel : Bool) :
    ∃ parent, c.nodes[(forge nonce extra fees chain).header.prevHash]? = some parent ∧
      c.nodes[c.bestHash]? = some parent ∧
      (forge nonce extra fees chain).header.prevHash = c.bestHash ∧
      (forge nonce extra fees chain).header.height = parent.height + 1 ∧
      parent.work = 64 * (chain.length + 1) ∧
      c.addOne net parallel (forge nonce extra fees chain).header.timestamp
        (forge nonce extra fees chain) =
          c.extendTip net parallel (forge nonce extra fees chain).header.timestamp
            (forge nonce extra fees chain) (vertex net parent (forge nonce extra fees chain)) := by
  obtain ⟨parent, found, height, work⟩ := follows.best
  have prevHash : (forge nonce extra fees chain).header.prevHash = c.bestHash := by
    change ((replay net chain).tip?.map fun tip => tip.id net).getD zeroHash = _
    rw [follows.tip, follows.bestHash]
    rfl
  have tipFound : c.nodes[c.bestHash]? = some parent := by
    rw [follows.bestHash]
    exact found
  have next : (forge nonce extra fees chain).header.height = parent.height + 1 := by
    rw [forge_height follows.state, height]
  have absent : ¬ c.nodes.contains ((forge nonce extra fees chain).header.id net) = true := by
    rw [forge_id follows.state, follows.absent small (by omega) word (.inl (Nat.lt_succ_self _))]
    exact Bool.false_ne_true
  have outranks :
      c.becomesBest (vertex net parent (forge nonce extra fees chain)) parent = true := by
    unfold Chain.becomesBest
    rw [Bool.or_eq_true, decide_eq_true_eq]
    exact .inl (Nat.lt_add_of_pos_right (Nat.succ_pos 63))
  have parentFound :
      c.nodes[(forge nonce extra fees chain).header.prevHash]? = some parent := by
    rw [prevHash]
    exact tipFound
  refine ⟨parent, parentFound, tipFound, prevHash, next, work, ?_⟩
  unfold Chain.addOne
  rw [if_neg absent, checkArrival_forge]
  dsimp only
  rw [parentFound, tipFound]
  dsimp only
  rw [if_neg (not_not.mpr next)]
  change (if !c.becomesBest (vertex net parent (forge nonce extra fees chain)) parent then _
    else _) = _
  rw [outranks, Bool.not_true, if_neg Bool.false_ne_true, if_pos prevHash]
  rfl

/-- The next empty block is followed. -/
theorem Follows.extend (follows : Follows chain c) (small : chain.length < 90) :
    AtTip net (forge 0 [] 0 chain).header.timestamp c (forge 0 [] 0 chain) ∧
    ∃ c', Follows (forge 0 [] 0 chain :: chain) c' ∧
      recvBlock net false (forge 0 [] 0 chain).header.timestamp ⟨c, {}⟩ (forge 0 [] 0 chain) =
        ⟨c', {}⟩ := by
  obtain ⟨parent, parentFound, tipFound, prevHash, height, work, one⟩ :=
    follows.addOne small 0 (by decide) [] 0 false
  have id := forge_id follows.state 0 [] 0
  have carried := Carried.none chain
  have childless (hash : Hash) : c.orphans[hash]?.getD [] = [] := by
    rw [follows.orphans]
    simp
  constructor
  · constructor
    · intro present
      rw [id, follows.absent small (by omega) (by decide) (.inl (Nat.lt_succ_self _))] at present
      exact absurd present Bool.false_ne_true
    · exact fun _ _ _ _ _ _ _ => .inl ⟨prevHash, childless _⟩
  have time : (forge 0 [] 0 chain).header.timestamp =
      genesisTimestamp + 120 * ((chain.length + 1 : Nat) : Int) := by
    rw [← follows.state.length]
    rfl
  have valid : (validateBlockCached net (replay net chain) false
      (forge 0 [] 0 chain).header.timestamp c.verifiedProofs (forge 0 [] 0 chain)).1 = .ok () := by
    rw [time]
    exact validateBlockCached_of_verified (forge_timely follows.state (by omega) carried) _ _
  obtain ⟨next, ran, ledger, verifiedProofs, tree⟩ :=
    extendTip_ran follows.tracks (vertex net parent (forge 0 [] 0 chain)) valid
  rw [ran] at one
  obtain ⟨cb, applied, -⟩ := @forge_applied chain follows.state 0 [] 0 (by omega) carried
  have state := @Net.extend chain follows.state 0 [] 0 (by omega) carried
  have low : (forge 0 [] 0 chain).header.height = chain.length + 1 := forge_height follows.state
  have tip : (replay net (forge 0 [] 0 chain :: chain)).tip? =
      some (forge 0 [] 0 chain).header := by
    rw [Ledger.tip?, applied.headers, List.getLast?_concat]
  -- The chain is too short for pruned bodies and for snapshots.
  have settled : next.settleTip net (vertex net parent (forge 0 [] 0 chain)) = { next with
      nodes := next.nodes.insert (idAt (chain.length + 1) 0)
        (vertex net parent (forge 0 [] 0 chain))
      bestHash := idAt (chain.length + 1) 0 } := by
    have hash : (vertex net parent (forge 0 [] 0 chain)).hash = idAt (chain.length + 1) 0 := id
    have place : (vertex net parent (forge 0 [] 0 chain)).height = chain.length + 1 := low
    have short : next.ledger.tipHeight < Config.maxReorgDepth := by
      rw [ledger, Ledger.tipHeight, tip, Option.map_some, low, Config.maxReorgDepth,
        Option.getD_some]
      omega
    have unsaved : ¬ (0 < chain.length + 1 ∧ (chain.length + 1) % Config.snapshotInterval = 0) := by
      rw [Config.snapshotInterval]
      omega
    unfold Chain.settleTip Chain.pruneNodeBodiesLocked
    rw [hash, place]
    dsimp only
    rw [if_pos short, if_neg unsaved]
  rw [settled] at one
  have added := addBlockLocked_childless one rfl (by
    dsimp only
    rw [tree.orphans]
    exact childless _)
  have nodes := tree.nodes
  refine ⟨_, ?_, by
    unfold recvBlock
    rw [added]
    exact congrArg _ (remove_empty _)⟩
  constructor
  case state => exact state
  case ledger => exact ledger
  case cold =>
    dsimp only
    rw [verifiedProofs, validateBlockCached_noTxs rfl]
    exact follows.cold
  case tip =>
    rw [tip, Option.map_some, id]
    rfl
  case nonces =>
    rw [applied.headers]
    intro h member
    rcases List.mem_append.mp member with old | new
    · exact follows.nonces h old
    · rw [List.mem_singleton.mp new]
      rfl
  case bestHash => rfl
  case best =>
    refine ⟨vertex net parent (forge 0 [] 0 chain), ?_, low, ?_⟩
    · dsimp only
      rw [List.length_cons, OrdMap.lookup_insert, if_pos rfl]
    · change parent.work + 64 = _
      rw [work, List.length_cons]
      omega
  case root =>
    obtain ⟨root, found, shape⟩ := follows.root
    refine ⟨root, ?_, shape⟩
    have apart : idAt (chain.length + 1) 0 ≠ idAt 0 0 := fun same =>
      absurd (idAt_inj (by omega) (by omega) (by decide) (by decide) same).1 (Nat.succ_ne_zero _)
    dsimp only
    rw [OrdMap.lookup_insert, if_neg apart, nodes]
    exact found
  case ids =>
    intro hash node found
    dsimp only at found
    rw [OrdMap.lookup_insert, nodes] at found
    split_ifs at found with new
    · exact ⟨chain.length + 1, Nat.le_refl _, new.symm⟩
    · obtain ⟨k, below, same⟩ := follows.ids hash node found
      exact ⟨k, below.trans (Nat.le_succ _), same⟩
  case orphans =>
    dsimp only
    rw [tree.orphans, follows.orphans]
    rfl
  case empty =>
    intro b member t listed
    rcases List.mem_cons.mp member with rfl | older
    · rw [List.mem_singleton.mp listed]
      rfl
    · exact follows.empty b older t listed

end Follow

/-- A new node of the network. -/
def opened : Chain :=
  match Chain.new net false 0 (Chain.blank net) with
  | .ok c => c
  | .error _ => Chain.blank net

theorem opened_new : Chain.new net false 0 (Chain.blank net) = .ok opened := by
  obtain ⟨c, created, -⟩ := blank_opened (V := net) false 0
  rw [opened, created]

/-- The opened node follows the chain of no blocks. -/
theorem follows_opened : Follows [] opened := by
  obtain ⟨c, created, ledger, verifiedProofs, tree⟩ := blank_opened (V := net) false 0
  have same : opened = c.indexActiveChain net := Except.ok.inj (opened_new.symm.trans created)
  obtain ⟨-, applied⟩ := genesis_applied (V := net)
  have headers : c.ledger.headers = [(genesisBlock net (.empty net)).header] := by
    rw [ledger, applied.headers]
    rfl
  have id : (genesisBlock net (.empty net)).header.id net = idAt 0 0 := id_eq _ rfl
  have indexed : c.indexActiveChain net = { c with
      nodes := (∅ : GoMap ChainNode).insert (idAt 0 0) ⟨idAt 0 0, zeroHash, 0, 64, none⟩
      bestHash := idAt 0 0 } := by
    unfold Chain.indexActiveChain
    rw [headers, ← id]
    rfl
  rw [same, indexed]
  have tip : (replay net []).headers = [(genesisBlock net (.empty net)).header] := by
    rw [← headers, ledger]
    rfl
  constructor
  case state => exact Net.genesis
  case ledger => exact ledger
  case cold => exact verifiedProofs
  case tip =>
    rw [Ledger.tip?, tip, List.getLast?_singleton, Option.map_some, id]
    rfl
  case nonces =>
    rw [tip]
    intro h member
    rw [List.mem_singleton.mp member]
    rfl
  case bestHash => rfl
  case best =>
    refine ⟨⟨idAt 0 0, zeroHash, 0, 64, none⟩, ?_, rfl, rfl⟩
    dsimp only [List.length_nil]
    rw [OrdMap.lookup_insert, if_pos rfl]
  case root =>
    refine ⟨⟨idAt 0 0, zeroHash, 0, 64, none⟩, ?_, rfl, rfl⟩
    dsimp only
    rw [OrdMap.lookup_insert, if_pos rfl]
  case ids =>
    intro hash node found
    dsimp only at found
    rw [OrdMap.lookup_insert] at found
    split_ifs at found with same
    · exact ⟨0, Nat.le_refl 0, same.symm⟩
    · exact absurd found (by simp)
  case orphans => exact tree.orphans
  case empty => exact fun b member => absurd member List.not_mem_nil

/-! ## Runs -/

section Runs

variable {V : Primitives}

theorem AtTipRun.append {n : Node} {before after : List Event} (first : AtTipRun V n before)
    (rest : AtTipRun V (before.foldl (dispatch V) n) after) : AtTipRun V n (before ++ after) := by
  induction before generalizing n with
  | nil => exact rest
  | cons event before ih => exact ⟨first.1, ih first.2 rest⟩

/-- A part of a consistent run is consistent. -/
theorem ConsistentRun.after {seen : List Block} {n : Node} {before after : List Event}
    (run : ConsistentRun V seen n (before ++ after)) :
    ∃ seen', (∀ b ∈ seen', b ∈ seen ∨ ∃ event ∈ before, b ∈ event.blocks) ∧
      ConsistentRun V seen' (before.foldl (dispatch V) n) after := by
  induction before generalizing seen n with
  | nil => exact ⟨seen, fun b member => .inl member, run⟩
  | cons event before ih =>
    obtain ⟨seen', known, rest⟩ := ih run.2
    refine ⟨seen', fun b member => ?_, rest⟩
    rcases known b member with old | ⟨earlier, listed, inside⟩
    · rcases List.mem_append.mp old with here | old
      · exact .inr ⟨event, List.mem_cons_self, here⟩
      · exact .inl old
    · exact .inr ⟨earlier, List.mem_cons_of_mem _ listed, inside⟩

end Runs

/-- The blocks of a chain, as they arrive. -/
def arrivals (chain : List Block) : List Event :=
  chain.reverse.map fun b => .block false b.header.timestamp b

theorem Follows.run {chain : List Block} {c c' : Chain} {b : Block}
    (before : (arrivals chain).foldl (dispatch net) ⟨opened, {}⟩ = ⟨c, {}⟩)
    (atTip : AtTipRun net ⟨opened, {}⟩ (arrivals chain))
    (next : AtTip net b.header.timestamp c b)
    (received : recvBlock net false b.header.timestamp ⟨c, {}⟩ b = ⟨c', {}⟩) :
    (arrivals (b :: chain)).foldl (dispatch net) ⟨opened, {}⟩ = ⟨c', {}⟩ ∧
      AtTipRun net ⟨opened, {}⟩ (arrivals (b :: chain)) := by
  have split : arrivals (b :: chain) = arrivals chain ++ [.block false b.header.timestamp b] := by
    rw [arrivals, List.reverse_cons, List.map_append]
    rfl
  rw [split, List.foldl_append, before]
  refine ⟨received, atTip.append ?_⟩
  rw [before]
  exact ⟨next, trivial⟩

/-- A node that is sent a chain follows it. -/
theorem followed (count : Nat) (small : count < 80) :
    ∃ c, Follows (idle 0 first count ++ first) c ∧
      (arrivals (idle 0 first count ++ first)).foldl (dispatch net) ⟨opened, {}⟩ = ⟨c, {}⟩ ∧
      AtTipRun net ⟨opened, {}⟩ (arrivals (idle 0 first count ++ first)) := by
  induction count with
  | zero =>
    obtain ⟨next, c, follows, received⟩ := follows_opened.extend (by simp)
    exact ⟨c, follows, Follows.run rfl trivial next received⟩
  | succ count ih =>
    obtain ⟨c, follows, before, atTip⟩ := ih (by omega)
    have length : (idle 0 first count ++ first).length = count + 1 := by
      rw [List.length_append, length_idle]
      rfl
    obtain ⟨next, c', follows', received⟩ := follows.extend (by omega)
    exact ⟨c', follows', Follows.run before atTip next received⟩

/-! ## The payment -/

/-- The coin of the first block is paid on. -/
def payment : Transaction := transfer 1 subsidy 0

/-- The payment passes alone. -/
theorem payment_valid :
    (validateStandaloneTx net (replay net matured) ∅ payment).1 = .ok () := by
  obtain ⟨coin, untagged⟩ := first_coin
  have stores := (quiet_matured.state.chained.mono fun L b => Verified.admitted).stores
  have enough : toll ≤ subsidy := by
    have bounds := subsidy_bounds
    have fee : toll.toNat = 10_000_000 := by decide
    rw [UInt64.le_iff_toNat_le, fee]
    omega
  obtain ⟨seen, valid⟩ := @transfer_valid (replay net matured) 1 0 (matured.length + 1) subsidy []
    coin untagged (by rw [length_matured]; decide) enough
    (key_new stores unpaid_matured.1 unpaid_matured.2) ⟨List.not_mem_nil, List.not_mem_nil⟩ 0
  exact Net.standalone quiet_matured.state valid

/-- The payment is pooled. -/
theorem payment_pooled {c : Chain} (follows : Follows matured c) :
    ∃ verifiedProofs, recvTx net 0 0 (fun _ => sameListing) ⟨c, {}⟩ payment =
      ⟨{ c with verifiedProofs }, single net 0 payment⟩ := by
  have small := transfer_size 1 subsidy 0
  have checked : precheck ((({} : Mempool).txs[hashHex net payment]?).isSome) (.ok ()) payment =
      .ok () :=
    precheck_ok (small.trans (by decide)) (toll_enough small).2 rfl (by simp)
  have live : ∀ input ∈ payment.inputs,
      (replay net matured).utxoEntry input.outputRef ≠ none := by
    intro input member
    obtain rfl := List.mem_singleton.mp member
    change (replay net matured).utxoEntry (payoutKey 1) ≠ none
    rw [first_coin.1]
    exact Option.some_ne_none _
  unfold recvTx
  rw [checked]
  dsimp only
  rw [follows.ledger, follows.cold, payment_valid, addLocked_empty 0 0 _ live rfl small]
  exact ⟨_, rfl⟩

/-- The pool and the active chain agree while the blocks arrive at the tip. -/
theorem arrivals_consistent :
    ConsistentRun net [] ⟨opened, {}⟩
      (arrivals matured ++ [.tx 0 0 (fun _ => sameListing) payment]) := by
  obtain ⟨c, -, before, atTip⟩ := followed 59 (by decide)
  exact pool_consistent opened_new _ (atTip.append ⟨trivial, trivial⟩)

/-! ## The side branch -/

/-- A block on top of genesis that lists the payment. -/
def beside : Block := forge 7 [payment] toll []

/-- The block beside the tip is stored. -/
theorem beside_stored {c : Chain} (follows : Follows matured c) (cache : ProofCache) :
    ∃ nodes orphans, Chain.addBlockLocked net false beside.header.timestamp
      { c with verifiedProofs := cache } beside =
        ([.side], { c with verifiedProofs := cache, nodes := nodes, orphans := orphans }) := by
  have id : beside.header.id net = idAt 1 7 := forge_id Net.genesis 7 [payment] toll
  obtain ⟨root, rootFound, height, work⟩ := follows.root
  obtain ⟨best, found, -, heavy⟩ := follows.best
  have bestFound : c.nodes[c.bestHash]? = some best := by
    rw [follows.bestHash]
    exact found
  have absent : ¬ c.nodes.contains (beside.header.id net) = true := by
    rw [id, follows.absent (by rw [length_matured]; decide) (by decide) (by decide)
      (.inr (by decide))]
    exact Bool.false_ne_true
  have parentFound : c.nodes[beside.header.prevHash]? = some root := by
    have parent : beside.header.prevHash = idAt 0 0 := by
      change ((replay net []).tip?.map fun tip => tip.id net).getD zeroHash = _
      rw [follows_opened.tip]
      rfl
    rw [parent]
    exact rootFound
  have lighter : c.becomesBest (vertex net root beside) best = false := by
    have worth : (vertex net root beside).work = 128 := by
      change root.work + 64 = 128
      rw [work]
    unfold Chain.becomesBest
    rw [Bool.or_eq_false_iff, Bool.and_eq_false_iff, decide_eq_false_iff_not,
      decide_eq_false_iff_not, worth, heavy, length_matured]
    omega
  have one : Chain.addOne net false beside.header.timestamp { c with verifiedProofs := cache }
      beside = (.side, { c with
        verifiedProofs := cache
        nodes := c.nodes.insert (beside.header.id net) (vertex net root beside) }) := by
    unfold Chain.addOne
    dsimp only
    rw [if_neg absent, show beside = forge 7 [payment] toll [] from rfl, checkArrival_forge]
    dsimp only
    rw [← show beside = forge 7 [payment] toll [] from rfl, parentFound, bestFound]
    dsimp only
    rw [if_neg (by rw [height]; exact not_not.mpr (forge_height Net.genesis))]
    change (if !c.becomesBest (vertex net root beside) best then _ else _) = _
    rw [lighter]
    rfl
  refine ⟨_, _, addBlockLocked_childless one rfl ?_⟩
  dsimp only
  rw [follows.orphans]
  simp

/-- **A block that does not join the active chain empties the pool.** -/
theorem side_branch_inconsistent :
    ¬ ∀ (V : Primitives) (parallel : Bool) (now : Int) (c : Chain),
      Chain.new V parallel now (Chain.blank V) = .ok c →
        ∀ events, ConsistentRun V [] ⟨c, {}⟩ events := by
  intro consistent
  obtain ⟨c, follows, before, -⟩ := followed 59 (by decide)
  obtain ⟨cache, pooled⟩ := payment_pooled follows
  obtain ⟨nodes, orphans, stored⟩ := beside_stored follows cache
  have run := consistent net false 0 opened opened_new (arrivals matured ++
    [.tx 0 0 (fun _ => sameListing) payment, .block false beside.header.timestamp beside])
  obtain ⟨seen, known, rest⟩ := run.after
  rw [matured, before] at rest
  obtain ⟨-, step, -⟩ := rest
  have first : dispatch net ⟨c, {}⟩ (.tx 0 0 (fun _ => sameListing) payment) =
      ⟨{ c with verifiedProofs := cache }, single net 0 payment⟩ := pooled
  have second : dispatch net ⟨{ c with verifiedProofs := cache }, single net 0 payment⟩
      (.block false beside.header.timestamp beside) =
        ⟨{ c with verifiedProofs := cache, nodes := nodes, orphans := orphans },
          remove net (single net 0 payment) beside.txs⟩ := by
    unfold dispatch recvBlock
    dsimp only
    rw [stored]
    rfl
  rw [first, second] at step
  have listed : payment ∈ beside.txs := List.mem_cons_of_mem _ List.mem_cons_self
  have there : (single net 0 payment).txs[hashHex net payment]? =
      some (pending net 0 payment) := by
    rw [single, OrdMap.lookup_insert, if_pos rfl]
    rfl
  have gone : (remove net (single net 0 payment) beside.txs).txs[hashHex net payment]? = none := by
    cases kept : (remove net (single net 0 payment) beside.txs).txs[hashHex net payment]? with
    | none => rfl
    | some e =>
      obtain ⟨same, apart⟩ := remove_kept kept
      obtain rfl := Option.some.inj (there.symm.trans same)
      have key := ref_mem_spendKeys (V := net) (t := payment) List.mem_cons_self
      exact absurd key (apart payment listed rfl _ key)
  rcases step.removed _ _ there gone with ⟨b, inSeen, ⟨active, -⟩, s, inside, normal, -⟩ | displaced
  · have headers := follows.nonces
    rw [← follows.ledger] at headers
    rcases List.mem_cons.mp inSeen with rfl | earlier
    · exact absurd (headers _ active) (by decide)
    · rcases known b earlier with none | ⟨event, arrived, inEvent⟩
      · exact absurd none List.not_mem_nil
      · obtain ⟨b', member, rfl⟩ := List.mem_map.mp arrived
        obtain rfl := List.mem_singleton.mp inEvent
        have idle := follows.empty b (List.mem_reverse.mp member) s inside
        rw [normal] at idle
        exact Bool.false_ne_true idle
  · cases displaced

end Obscura.P2p.Relay
