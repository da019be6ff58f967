import Obscura.Testnet

/-! # Networks with transactions

Chains of blocks two minutes apart on a network whose block ids show the height and the
nonce. Besides its coinbase a block carries the given transactions. At this pace the
difficulty stays at its first value, and the retrievability challenges always fall on
the genesis block, so that such chains can be followed by induction.
-/

namespace Obscura.Forge

open Wire Tx Checked Testnet

/-! ## The primitives -/

/-- Eight bytes of a string, from a position on. -/
def octet (start : Nat) (bytes : Bytes) : Bytes :=
  ((bytes.drop start).take 8 ++ List.replicate 8 0).take 8

@[simp] theorem length_octet (start : Nat) (bytes : Bytes) : (octet start bytes).length = 8 := by
  simp [octet]

/-- Of a serialized header, the height and the nonce. -/
def digest (bytes : Bytes) : Hash := List.replicate 16 0 ++ octet 2 bytes ++ octet 58 bytes

theorem length_digest (bytes : Bytes) : (digest bytes).length = 32 := by
  simp [digest]

/-- An anonymous proof points at the member of the ring whose key is the tag, and names
what it signs. -/
def ringProof (keys commits : List Bytes) (pseudo tag : Bytes) : (proof ctx : Bytes) → Bool
  | [], _ => false
  | place :: signed, ctx => keys[place.toNat]? == some tag &&
      (commits[place.toNat]?.map fun commitment => commitment.take 8) == some (pseudo.take 8) &&
      signed == ctx

/-- The test network under these ids, with its ideal cryptography. -/
def digestNet : Primitives := primitives digest

/-- The cryptography of the digest network is ideal. -/
def digestIdeal : Ideal digestNet := ideal digest

/-- Signatures name their key and what they sign; a claim key is its first share. -/
def net : Primitives :=
  { primitives digest with
    verifyAnonSpendBytes := ringProof
    claimBindingOK := fun sigR claimR _ => sigR == claimR
    aggregateKeyVerified := fun claimA _ _ _ => some claimA }

theorem octet_append {front word : Bytes} {start : Nat} (before : front.length = start)
    (width : word.length = 8) (rest : Bytes) : octet start (front ++ (word ++ rest)) = word := by
  rw [octet, List.drop_left' before, List.take_left' width, List.take_left' width]

/-- The hash of a header shows its height and nonce. -/
theorem id_eq (h : Header) (prevHash : h.prevHash.length = 32) :
    h.id net = List.replicate 16 0 ++ putU64 h.height ++ putU64 h.nonce := by
  have height : h.serialize = bigEndian 2 h.version ++ (putU64 h.height ++ (h.prevHash ++
      wi64 h.timestamp ++ putU64 h.difficulty ++ putU64 h.nonce ++ h.roots)) := by
    simp only [Header.serialize, List.append_assoc]
  have nonce : h.serialize = (bigEndian 2 h.version ++ putU64 h.height ++ h.prevHash ++
      wi64 h.timestamp ++ putU64 h.difficulty) ++ (putU64 h.nonce ++ h.roots) := by
    simp only [Header.serialize, List.append_assoc]
  change digest h.serialize = _
  have first : octet 2 h.serialize = putU64 h.height := by
    rw [height]
    exact octet_append (length_bigEndian 2 _) (length_bigEndian 8 _) _
  have second : octet 58 h.serialize = putU64 h.nonce := by
    rw [nonce]
    exact octet_append (by simp [putU64, wi64, prevHash]) (length_bigEndian 8 _) _
  rw [digest, first, second]

theorem challenge_genesis (prevHash : Hash) (slot height : Nat) (low : height ≤ Config.porWindow) :
    porChallengeHeight net prevHash slot height = 0 ∧
      ∀ numTxs, porChallengeIndex net prevHash slot numTxs = 0 := by
  have seed : ∀ slot, (porSeed net prevHash slot).take 8 = List.replicate 8 0 ∧
      ((porSeed net prevHash slot).drop 8).take 8 = List.replicate 8 0 := by
    intro slot
    change (digest _).take 8 = _ ∧ ((digest _).drop 8).take 8 = _
    simp [digest]
  have zero : ofBigEndian (List.replicate 8 0) = 0 := by decide
  constructor
  · rw [porChallengeHeight, (seed slot).1, zero, porWindowLow, Nat.sub_eq_zero_of_le low]
    simp
  · intro numTxs
    rw [porChallengeIndex, (seed slot).2, zero]
    simp

/-! ## The pace -/

/-- The timestamps of consecutive blocks. -/
def ticks (start count : Nat) : List Int :=
  (List.range' start count).map fun k : Nat => genesisTimestamp + 120 * (k : Int)

theorem ticks_drop (start count skip : Nat) :
    (ticks start count).drop skip = ticks (start + skip) (count - skip) := by
  rw [ticks, ← List.map_drop, List.drop_range', Nat.mul_one]
  rfl

theorem ticks_succ (count : Nat) :
    ticks 0 (count + 1) = ticks 0 count ++ [genesisTimestamp + 120 * (count : Int)] := by
  rw [ticks, List.range'_concat, List.map_append, Nat.zero_add, Nat.one_mul]
  rfl

theorem ticks_solves (clip : Int → Int) (fixed : clip 120 = 120) (start count : Nat) :
    List.zipWith (fun older newer => clip (newer - older)) (ticks start (count + 1))
      (ticks start (count + 1)).tail = List.replicate count 120 := by
  induction count generalizing start with
  | zero => rfl
  | succ count ih =>
    have gap : clip (genesisTimestamp + 120 * ((start + 1 : Nat) : Int) -
        (genesisTimestamp + 120 * (start : Int))) = 120 := by
      have apart : genesisTimestamp + 120 * ((start + 1 : Nat) : Int) -
          (genesisTimestamp + 120 * (start : Int)) = 120 := by omega
      rw [apart, fixed]
    have rest := ih (start + 1)
    simp only [ticks, List.range'_succ, List.map_cons, List.tail_cons, List.zipWith_cons_cons,
      List.replicate_succ] at rest ⊢
    rw [gap, rest]

theorem sum_weighted (count start : Nat) :
    (((List.replicate count (120 : Int)).zipIdx start).map fun (solve, weight) =>
      solve * (weight : Int)).sum = 120 * (((List.range' start count).sum : Nat) : Int) := by
  induction count generalizing start with
  | zero => rfl
  | succ count ih =>
    rw [List.replicate_succ, List.zipIdx_cons, List.map_cons, List.sum_cons, ih,
      List.range'_succ, List.sum_cons]
    push_cast
    ring

theorem le_sum_range' (count : Nat) : count ≤ (List.range' 1 count).sum := by
  induction count with
  | zero => exact Nat.zero_le _
  | succ count ih =>
    rw [List.range'_concat, List.sum_append, List.sum_singleton]
    omega

/-- A steady pace keeps the difficulty. -/
theorem nextDifficulty_steady (start count : Nat) :
    nextDifficulty (ticks start count) (List.replicate count 64) = 64 := by
  unfold nextDifficulty
  rw [if_neg (by decide)]
  by_cases few : count < 2
  · rw [if_pos (by simpa using few)]
    rfl
  · rw [if_neg (by simpa using few)]
    obtain ⟨n, window⟩ : ∃ n, min count Config.difficultyWindow = n + 2 := by
      exact ⟨min count Config.difficultyWindow - 2, by unfold Config.difficultyWindow; omega⟩
    have kept : count - (count - (n + 2)) = n + 2 := by omega
    have times : (ticks start count).drop ((ticks start count).length - (n + 2)) =
        ticks (start + (count - (n + 2))) (n + 2) := by
      have length : (ticks start count).length = count := by simp [ticks]
      rw [length, ticks_drop, kept]
    have weighted := sum_weighted (n + 1) 1
    have denom := le_sum_range' (n + 1)
    have solves := ticks_solves (fun gap => max (-6 * Config.targetBlockTime)
      (min (6 * Config.targetBlockTime) gap)) (by decide) (start + (count - (n + 2))) (n + 1)
    have average : (List.replicate (n + 2) 64).tail.sum / (n + 1) = 64 := by
      simp
    have last : (List.replicate (n + 2) 64).getLast?.getD 0 = 64 := by
      simp [List.getLast?_replicate]
    have time : (max (max 1 (((n + 2 : Nat) : Int) * Config.targetBlockTime / 20))
        (120 * (((List.range' 1 (n + 1)).sum : Nat) : Int))).toNat =
        120 * (List.range' 1 (n + 1)).sum := by
      unfold Config.targetBlockTime
      omega
    have cancel : 64 * Config.targetBlockTime.toNat * (List.range' 1 (n + 1)).sum /
        (120 * (List.range' 1 (n + 1)).sum) = 64 := by
      have shape : 64 * Config.targetBlockTime.toNat * (List.range' 1 (n + 1)).sum =
          64 * (120 * (List.range' 1 (n + 1)).sum) := by
        rw [show Config.targetBlockTime.toNat = 120 from rfl, Nat.mul_assoc]
      rw [shape, Nat.mul_div_cancel _ (by omega)]
    simp only [List.length_replicate, window, times, List.drop_replicate, solves, weighted, kept,
      Nat.add_succ_sub_one, average, last, time, cancel]
    rfl

/-! ## Blocks -/

/-- The next block, with the given transactions behind its coinbase. -/
def forge (nonce : Nat) (extra : List Transaction) (fees : UInt64) (chain : List Block) : Block :=
  let L := replay net chain
  let height := L.headers.length
  let txs := payout height 0 (reward L + fees) :: extra
  let por := List.replicate Config.porChallenges ⟨0, genesisCoinbase.serialize, []⟩
  { header :=
      { height, nonce
        prevHash := (L.tip?.map fun tip => tip.id net).getD zeroHash
        timestamp := genesisTimestamp + 120 * (height : Int)
        difficulty := 64
        merkleRoot := merkleRoot net txs
        accValue := [1]
        accSize := L.acc.size + (primesOf net txs).length
        nullRoot := L.nullAcc.rootAfter net (blockTagsFromTxs net txs)
        pqAccRoot := L.pqAcc.rootAfter net []
        cmRoot := L.cmTree.rootAfter net []
        numTxs := txs.length
        porRoot := porRootOf net por
        stateRoot := L.stateRoot net }
    txs, por }

/-- A chain of forged blocks and what its state shows. -/
structure Net (chain : List Block) : Prop where
  chained : Chained net (Verified net) chain
  times : (replay net chain).headers.map Header.timestamp = ticks 0 (chain.length + 1)
  diffs : (replay net chain).headers.map Header.difficulty = List.replicate (chain.length + 1) 64
  first : (replay net chain).headers[0]? = some (genesisBlock net (.empty net)).header
  coins : ∀ coin ∈ (chainLists net chain).coins, ∃ k ≤ chain.length, coin.key = payoutKey k
  primes : ∀ prime ∈ (chainLists net chain).outPrimes,
    ∃ k ≤ chain.length, prime = hexstr (payoutKey k)
  streaming : (replay net chain).nullAcc.streaming = true
  peaks : ∀ peak ∈ (replay net chain).nullAcc.peaks, peak.hash.length = 32
  cmTree : (replay net chain).cmTree = .new net Config.zkDepth

/-- What the transactions of a block behind its coinbase must satisfy. -/
structure Carried (chain : List Block) (extra : List Transaction) (fees : UInt64) : Prop where
  few : extra.length ≤ 1
  normal : ∀ t ∈ extra, t.isCoinbase = false ∧ t.vaultInputs = [] ∧ t.serialize.length ≤ 10_000
  noLeaves : cmLeavesFromTxs extra = []
  noPQ : pqKeysFromTxs extra = []
  outputs : ∀ t ∈ extra, ∀ o ∈ t.outputs, o.oneTimeKey = payoutKey 0
  small : fees.toNat ≤ 1_000_000_000
  tally : ∀ b : Block, b.header.height = chain.length + 1 →
    ∃ seen, extra.foldlM (tallyTx net (fun _ => false) (replay net chain) b)
      ⟨[payoutKey (chain.length + 1)], ⟨[], [hexstr (payoutKey (chain.length + 1)),
        ascii "key:" ++ hexstr (payoutKey (chain.length + 1))]⟩, 0⟩ =
      .ok ⟨payoutKey (chain.length + 1) :: primesOf net extra, seen, fees⟩

theorem Net.length {chain : List Block} (state : Net chain) :
    (replay net chain).headers.length = chain.length + 1 := by
  have same := congrArg List.length state.times
  simpa [ticks] using same

/-- The chain of no blocks. -/
theorem Net.genesis : Net [] := by
  obtain ⟨_, applied⟩ := genesis_applied (V := net)
  have headers : (replay net []).headers = [(genesisBlock net (.empty net)).header] := by
    change (genesisLedger net).headers = _
    rw [applied.headers]
    rfl
  have nullAcc : (replay net []).nullAcc = .newStreaming := by
    change (genesisLedger net).nullAcc = _
    rw [applied.nullAcc]
    rfl
  constructor
  case chained => exact trivial
  case times => rw [headers]; rfl
  case diffs => rw [headers]; rfl
  case first => rw [headers]; rfl
  case coins => intro coin member; simp [chainLists] at member
  case primes => intro prime member; simp [chainLists] at member
  case streaming => rw [nullAcc]; rfl
  case peaks => rw [nullAcc]; intro peak member; exact absurd member List.not_mem_nil
  case cmTree =>
    change (genesisLedger net).cmTree = _
    rw [applied.cmTree]
    rfl

/-! ## They are accepted -/

/-- No transaction has the hash of a coinbase. -/
theorem hash_apart {t cb : Transaction} (normal : t.isCoinbase = false)
    (isCoinbase : cb.isCoinbase = true) : t.hash net ≠ cb.hash net := by
  have flag : ∀ t : Transaction, (octet 2 t.serialize).head? = (wBool t.isCoinbase).head? := by
    intro t
    obtain ⟨rest, split⟩ : ∃ rest, t.serialize =
        bigEndian 2 t.version.toNat ++ (wBool t.isCoinbase ++ rest) := by
      unfold Transaction.serialize
      simp only [List.append_assoc]
      exact ⟨_, rfl⟩
    rw [octet, split, List.drop_left' (length_bigEndian 2 _)]
    rfl
  intro same
  have octets : octet 2 t.serialize = octet 2 cb.serialize := by
    change digest t.serialize = digest cb.serialize at same
    rw [digest, digest, List.append_assoc, List.append_assoc] at same
    obtain ⟨-, rest⟩ := List.append_inj same rfl
    exact (List.append_inj rest (by simp)).1
  have flags := congrArg List.head? octets
  rw [flag, flag, normal, isCoinbase] at flags
  exact absurd flags (by decide)

section Sections

variable {chain : List Block} (state : Net chain) {nonce : Nat} {extra : List Transaction}
  {fees : UInt64}

include state

theorem forge_height : (forge nonce extra fees chain).header.height = chain.length + 1 :=
  state.length

theorem forge_txs : (forge nonce extra fees chain).txs =
    payout (chain.length + 1) 0 (reward (replay net chain) + fees) :: extra := by
  rw [← state.length]
  rfl

theorem expectedDifficulty_eq : (replay net chain).expectedDifficulty = 64 := by
  unfold Ledger.expectedDifficulty Ledger.recentTimestampsAndDiffs
  dsimp only
  rw [List.map_drop, List.map_drop, state.times, state.diffs, state.length, List.drop_replicate,
    ticks_drop]
  exact nextDifficulty_steady _ _

theorem medianTimePast_lt :
    (replay net chain).medianTimePast < genesisTimestamp + 120 * ((chain.length + 1 : Nat) : Int) := by
  have positive : (0 : Int) < genesisTimestamp := by decide
  refine medianTimePast_lt_of (by omega) fun header member => ?_
  have listed : header.timestamp ∈ ticks 0 (chain.length + 1) := by
    rw [← state.times]
    exact List.mem_map_of_mem member
  obtain ⟨k, recent, same⟩ := List.mem_map.mp listed
  have bound := (List.mem_range'_1.mp recent).2
  omega

omit state in
theorem prevHash_length : (forge nonce extra fees chain).header.prevHash.length = 32 := by
  change (Option.getD (Option.map _ _) zeroHash).length = 32
  cases (replay net chain).tip? with
  | none => rfl
  | some tip => exact length_digest _

omit state in
/-- The peaks have hashes of 32 bytes. -/
theorem pushPeak_width {peak : PQAccum.Peak} (width : peak.hash.length = 32) :
    ∀ {peaks : List PQAccum.Peak}, (∀ p ∈ peaks, p.hash.length = 32) →
      ∀ p ∈ PQAccum.pushPeak net peak peaks, p.hash.length = 32 := by
  intro peaks
  induction peaks generalizing peak with
  | nil =>
    intro _ p member
    rw [List.mem_singleton.mp member]
    exact width
  | cons newest older ih =>
    intro widths
    unfold PQAccum.pushPeak
    split_ifs with same
    · exact ih (length_digest _) fun p member => widths p (List.mem_cons_of_mem _ member)
    · intro p member
      rcases List.mem_cons.mp member with rfl | member
      · exact width
      · exact widths p member

omit state in
/-- So has their root. -/
theorem rootFromPeaks_width {peaks : List PQAccum.Peak} (widths : ∀ p ∈ peaks, p.hash.length = 32) :
    (PQAccum.rootFromPeaks net peaks).length = 32 := by
  cases peaks with
  | nil => rfl
  | cons newest older =>
    rw [PQAccum.rootFromPeaks]
    cases older using List.reverseRecOn with
    | nil => exact widths newest List.mem_cons_self
    | append_singleton front last =>
      rw [List.foldl_append]
      exact length_digest _

omit state in
theorem foldl_pushPeak_width (tags : List Bytes) {peaks : List PQAccum.Peak}
    (widths : ∀ p ∈ peaks, p.hash.length = 32) :
    ∀ p ∈ tags.foldl (fun peaks data => PQAccum.pushPeak net ⟨PQAccum.leafHash net data, 1⟩ peaks)
      peaks, p.hash.length = 32 := by
  induction tags generalizing peaks with
  | nil => exact widths
  | cons tag tags ih => exact ih (pushPeak_width (length_digest _) widths)

theorem nullRoot_length (tags : List Bytes) :
    ((replay net chain).nullAcc.rootAfter net tags).length = 32 := by
  rw [← PQAccum.Accumulator.root_foldl_add,
    PQAccum.Accumulator.foldl_add_streaming net _ state.streaming, PQAccum.Accumulator.root,
    if_pos state.streaming]
  exact rootFromPeaks_width (foldl_pushPeak_width tags state.peaks)

theorem cmRoot_length : ((replay net chain).cmTree.rootAfter net []).length = 48 := by
  have root : (EpochIMT.new net Config.zkDepth).rootAfter net [] =
      Frontier.blank pairNodes zeroHash Config.zkDepth := by
    simp only [EpochIMT.rootAfter, List.foldl_nil, EpochIMT.new, IMT256.new, zeroRoot, net,
      primitives]
  rw [state.cmTree, root, blank_length, Config.zkDepth]

omit state in
theorem merkleRoot_length {txs : List Transaction} (few : txs.length ≤ 2) :
    (merkleRoot net txs).length = 32 := by
  match txs, few with
  | [], _ => rfl
  | [t], _ => exact length_digest _
  | [t, u], _ => exact length_digest _

/-- The header is short. -/
theorem header_length (few : extra.length ≤ 1) :
    (forge nonce extra fees chain).header.serialize.length ≤ 400 := by
  have regular := (state.chained.mono fun L b => Verified.admitted).regular
  have prevHash := @prevHash_length chain nonce extra fees
  have merkleRoot : (forge nonce extra fees chain).header.merkleRoot.length = 32 :=
    merkleRoot_length (by rw [List.length_cons]; omega)
  have pqAccRoot : (forge nonce extra fees chain).header.pqAccRoot.length = 32 := by
    change ((replay net chain).pqAcc.rootAfter _ []).length = 32
    rw [regular.noPQKey]
    rfl
  have nullRoot : (forge nonce extra fees chain).header.nullRoot.length = 32 :=
    nullRoot_length state _
  have cmRoot : (forge nonce extra fees chain).header.cmRoot.length = 48 := cmRoot_length state
  have accValue : (forge nonce extra fees chain).header.accValue.length = 1 := rfl
  have porRoot : (forge nonce extra fees chain).header.porRoot.length = 32 := length_digest _
  have stateRoot : (forge nonce extra fees chain).header.stateRoot.length = 32 := length_digest _
  simp only [Header.serialize, Header.roots, wi64, putU64, List.length_append, length_bigEndian,
    length_wB, prevHash, merkleRoot, accValue, pqAccRoot, nullRoot, cmRoot, porRoot, stateRoot]
  omega

/-- The block is short enough. -/
theorem forge_length (carried : Carried chain extra fees) :
    (forge nonce extra fees chain).serialize.length ≤ Config.maxBlockBytes := by
  have header := @header_length chain state nonce extra fees carried.few
  have coinbase := length_payout (chain.length + 1) 0 (reward (replay net chain) + fees)
  have txs : ((forge nonce extra fees chain).txs.flatMap fun t => wB t.serialize).length ≤
      10_004 * (forge nonce extra fees chain).txs.length := by
    refine length_flatMap_le fun t member => ?_
    rw [forge_txs state] at member
    rw [length_wB]
    rcases List.mem_cons.mp member with rfl | member
    · omega
    · have := (carried.normal t member).2.2
      omega
  have count : (forge nonce extra fees chain).txs.length ≤ 2 := by
    have few := carried.few
    rw [forge_txs state, List.length_cons]
    omega
  have por : ((forge nonce extra fees chain).por.flatMap fun entry => wB entry.serialize).length ≤
      2000 * Config.porChallenges := by
    refine length_flatMap_le fun entry member => ?_
    obtain ⟨_, rfl⟩ := List.mem_replicate.mp member
    have size := length_genesisCoinbase
    simp only [PoREntry.serialize, putU64, List.length_append, length_wB, length_bigEndian,
      List.flatMap_nil, List.length_nil]
    omega
  simp only [Block.serialize, putList, putU64, List.length_append, length_wB,
    length_bigEndian, Config.maxBlockBytes, Config.porChallenges] at por ⊢
  omega

/-- The header is accepted. -/
theorem checkHeader_forge (carried : Carried chain extra fees) {tip : Header}
    (found : (replay net chain).tip? = some tip) :
    checkHeader net (genesisTimestamp + 120 * ((chain.length + 1 : Nat) : Int)) (replay net chain)
      (forge nonce extra fees chain) tip = .ok () := by
  have regular := (state.chained.mono fun L b => Verified.admitted).regular
  have height := @forge_height chain state nonce extra fees
  have timestamp : (forge nonce extra fees chain).header.timestamp =
      genesisTimestamp + 120 * ((chain.length + 1 : Nat) : Int) := by
    rw [← state.length]
    rfl
  obtain ⟨seed, seedFound⟩ := powSeed_isSome net state.length (Nat.succ_pos _)
  refine checkHeader_ok.mpr ?_
  constructor
  case size => exact forge_length state carried
  case height => rw [height, regular.tip found, state.length]
  case prevHash =>
    change (Option.map (fun tip : Header => tip.id net) _).getD zeroHash = _
    rw [found]
    rfl
  case positive => exact (by decide : (64 : Nat) ≠ 0)
  case notFuture =>
    rw [timestamp]
    unfold Config.maxFutureDriftSeconds
    omega
  case afterMedian =>
    rw [timestamp]
    exact medianTimePast_lt state
  case difficulty => exact (expectedDifficulty_eq state).symm
  case work => exact ⟨seed, by rw [height]; exact seedFound, rfl⟩

/-- The key of the next coinbase is new. -/
theorem nextKey_new (small : chain.length < 2000) :
    (replay net chain).coins.coinByKey (payoutKey (chain.length + 1)) = none ∧
      (replay net chain).outPrimes.has (hexstr (payoutKey (chain.length + 1))) = false := by
  have stores := (state.chained.mono fun L b => Verified.admitted).stores
  have apart : ∀ k ≤ chain.length, payoutKey k ≠ payoutKey (chain.length + 1) := by
    intro k below same
    have := payoutKey_inj (by omega) (by omega) same
    omega
  refine key_new stores (fun coin member same => ?_) fun listed => ?_
  · obtain ⟨k, below, key⟩ := state.coins coin member
    exact apart k below (key ▸ same)
  · obtain ⟨k, below, same⟩ := state.primes _ listed
    exact apart k below (hexstr_injective same).symm

theorem checkTxList_forge (carried : Carried chain extra fees) :
    checkTxList net (forge nonce extra fees chain) =
      .ok (payout (chain.length + 1) 0 (reward (replay net chain) + fees)) := by
  have isCoinbase : (payout (chain.length + 1) 0
      (reward (replay net chain) + fees)).isCoinbase = true := rfl
  unfold checkTxList
  rw [forge_txs state]
  generalize payout _ _ _ = cb at isCoinbase ⊢
  match extra, carried.few, carried.normal with
  | [], _, _ => simp [isCoinbase, reject]
  | [t], _, normal =>
    have flag := (normal t List.mem_cons_self).1
    simp [isCoinbase, flag, reject, hash_apart flag isCoinbase]

/-- The answers to the challenges are accepted. -/
theorem validatePoR_forge (small : chain.length < 2000) :
    validatePoRLocked net (replay net chain) (forge nonce extra fees chain) = .ok () := by
  have height := @forge_height chain state nonce extra fees
  have required : porRequired (forge nonce extra fees chain).header.height = true := by
    rw [height]
    simp [porRequired, Config.porChallenges]
  unfold validatePoRLocked
  simp only [bind_ok, reject_ok, exists_const, required, Bool.not_true, Bool.false_eq_true,
    ↓reduceIte, ne_eq, not_not]
  refine ⟨rfl, List.length_replicate, rfl, ?_⟩
  rw [height, forM_ok]
  rintro ⟨entry, slot⟩ member
  have answer : entry = ⟨0, genesisCoinbase.serialize, []⟩ :=
    (List.mem_replicate.mp (List.fst_mem_of_mem_zipIdx member)).2
  obtain ⟨atGenesis, first⟩ := challenge_genesis (forge nonce extra fees chain).header.prevHash
    slot (chain.length + 1) (by unfold Config.porWindow; omega)
  simp only [bind_ok, orReject_ok, reject_ok]
  refine ⟨(genesisBlock net (.empty net)).header, ?_, ?_⟩
  · rw [atGenesis]
    exact state.first
  · rw [answer, atGenesis, first]
    simp [verifyPoREntry, verifyMerkleProof, indexFromSteps, genesisBlock, merkleRoot,
      mergeLayers, Transaction.hash]

/-- Such a block passes every check at the time it carries. -/
theorem forge_timely (small : chain.length < 2000) (carried : Carried chain extra fees) :
    validateBlockLocked net (fun _ => false)
      (genesisTimestamp + 120 * ((chain.length + 1 : Nat) : Int)) (replay net chain)
      (forge nonce extra fees chain) = .ok () := by
  have regular := (state.chained.mono fun L b => Verified.admitted).regular
  obtain ⟨tip, found⟩ : ∃ tip, (replay net chain).tip? = some tip :=
    ⟨_, List.getLast?_eq_some_getLast regular.started⟩
  have height := @forge_height chain state nonce extra fees
  have txs := @forge_txs chain state nonce extra fees
  obtain ⟨seen, tally⟩ := carried.tally (forge nonce extra fees chain) height
  unfold validateBlockLocked
  simp only [bind_ok, reject_ok, orReject_ok, exists_const, Prod.exists, ne_eq, not_not]
  refine ⟨tip, found, (), checkHeader_forge state carried found,
    payout (chain.length + 1) 0 (reward (replay net chain) + fees),
    checkTxList_forge state carried, _, _,
    checkOutputs_fresh digest (payout_widths _ _ _ _ List.mem_cons_self)
      (nextKey_new state small) (by simp), (), checkCoinbaseLegs_ok.mpr ?_, ?_⟩
  · constructor <;> rfl
  · have rest : (forge nonce extra fees chain).txs.tail = extra := by rw [txs]; rfl
    rw [rest]
    refine ⟨_, tally, (), ?_, (), ?_, rfl, (), validatePoR_forge state small, ?_⟩
    · have none : (forge nonce extra fees chain).txs.flatMap Transaction.vaultInputs = [] := by
        rw [txs, List.flatMap_cons, List.flatMap_eq_nil_iff.mpr fun t member =>
          (carried.normal t member).2.1]
        rfl
      rw [checkVaultYields, none]
      simp [reject, pure, Except.pure, bind, Except.bind]
    · have word : (forge nonce extra fees chain).header.height < 2 ^ 64 := by
        rw [height]
        omega
      have check := checkCoinbase_payout digest (replay net chain) carried.small word 0
      rw [height] at check
      exact check
    · have leaves : cmLeavesFromTxs (forge nonce extra fees chain).txs = [] := by
        rw [txs]
        exact carried.noLeaves
      have keys : pqKeysFromTxs (forge nonce extra fees chain).txs = [] := by
        rw [txs]
        exact carried.noPQ
      unfold checkRoots
      simp only [bind_ok, reject_ok, exists_const, ne_eq, not_not, leaves, keys]
      refine ⟨rfl, ?_, rfl, rfl, rfl, rfl⟩
      have primes : primesOf net (payout (replay net chain).headers.length 0
          (reward (replay net chain) + fees) :: extra) =
            payoutKey (chain.length + 1) :: primesOf net extra := by
        rw [state.length]
        rfl
      change (replay net chain).acc.size + (primesOf net (_ :: extra)).length = _
      rw [primes]

theorem forge_verified (small : chain.length < 2000) (carried : Carried chain extra fees) :
    Verified net (replay net chain) (forge nonce extra fees chain) :=
  ⟨_, forge_timely state small carried⟩

/-- The state after such a block. -/
theorem forge_applied (small : chain.length < 2000) (carried : Carried chain extra fees) :
    ∃ cb, Applied net (replay net chain) (forge nonce extra fees chain) cb
      (replay net (forge nonce extra fees chain :: chain)) ∧
      (applyBlock net (replay net chain) (forge nonce extra fees chain)).1 = none := by
  obtain ⟨now, accepted⟩ := @forge_verified chain state nonce extra fees small carried
  have regular := (state.chained.mono fun L b => Verified.admitted).regular
  obtain ⟨cb, _, L', _, _, run, applied, _⟩ := regular.step accepted
  rw [replay, run]
  exact ⟨cb, applied, rfl⟩

/-- What a block adds to the stores. -/
theorem forge_lists :
    blockLists net (chainLists net chain).coins.length (forge nonce extra fees chain) =
      { spent := spentRefs extra
        tags := (blockTagsFromTxs net extra).map hexstr
        outPrimes := hexstr (payoutKey (chain.length + 1)) :: (primesOf net extra).map hexstr
        coins :=
          ⟨payoutKey (chain.length + 1),
            wU64 (reward (replay net chain) + fees) ++ bigEndian 24 0, chain.length + 1, true, 0,
            (chainLists net chain).coins.length⟩ ::
          coinsOf (chain.length + 1) ((chainLists net chain).coins.length + 1)
            (outputsOf extra) } := by
  rw [blockLists, forge_txs state, forge_height state]
  rfl

/-- **One more block** on a chain of the network. -/
theorem Net.extend (small : chain.length < 2000) (carried : Carried chain extra fees) :
    Net (forge nonce extra fees chain :: chain) := by
  have verified := @forge_verified chain state nonce extra fees small carried
  obtain ⟨cb, applied, run⟩ := @forge_applied chain state nonce extra fees small carried
  have height := @forge_height chain state nonce extra fees
  have lists := @forge_lists chain state nonce extra fees
  constructor
  case chained => exact ⟨state.chained, verified, run⟩
  case times =>
    have time : (forge nonce extra fees chain).header.timestamp =
        genesisTimestamp + 120 * ((chain.length + 1 : Nat) : Int) := by
      rw [← state.length]
      rfl
    rw [applied.headers, List.map_append, state.times, List.map_singleton, time, List.length_cons,
      ticks_succ (chain.length + 1)]
  case diffs =>
    rw [applied.headers, List.map_append, state.diffs, List.length_cons]
    exact List.replicate_succ'.symm
  case first =>
    rw [applied.headers, List.getElem?_append_left (by rw [state.length]; omega)]
    exact state.first
  case coins =>
    intro coin member
    rw [chainLists, StoreLists.append, lists, List.mem_append, List.mem_cons] at member
    rcases member with old | rfl | fresh
    · obtain ⟨k, below, key⟩ := state.coins coin old
      exact ⟨k, by rw [List.length_cons]; omega, key⟩
    · exact ⟨chain.length + 1, by rw [List.length_cons], rfl⟩
    · have keys := coinsOf_key (chain.length + 1) ((chainLists net chain).coins.length + 1)
        (outputsOf extra)
      have listed := @List.mem_map_of_mem _ _ _ _ CoinInfo.key fresh
      rw [keys, List.mem_map] at listed
      obtain ⟨entry, member, same⟩ := listed
      simp only [outputsOf, List.mem_flatMap, List.mem_map] at member
      obtain ⟨t, inExtra, o, inOutputs, rfl⟩ := member
      exact ⟨0, Nat.zero_le _, by rw [← same]; exact carried.outputs t inExtra o inOutputs⟩
  case primes =>
    intro prime member
    rw [chainLists, StoreLists.append, lists, List.mem_append, List.mem_cons] at member
    rcases member with old | rfl | fresh
    · obtain ⟨k, below, same⟩ := state.primes prime old
      exact ⟨k, by rw [List.length_cons]; omega, same⟩
    · exact ⟨chain.length + 1, by rw [List.length_cons], rfl⟩
    · obtain ⟨bytes, listed, rfl⟩ := List.mem_map.mp fresh
      obtain ⟨entry, member, same⟩ := List.mem_filterMap.mp listed
      simp only [outputsOf, List.mem_flatMap, List.mem_map] at member
      obtain ⟨t, inExtra, o, inOutputs, rfl⟩ := member
      obtain rfl : o.oneTimeKey = bytes := Option.some.inj same
      exact ⟨0, Nat.zero_le _, by rw [carried.outputs t inExtra o inOutputs]⟩
  case streaming =>
    rw [applied.nullAcc, PQAccum.Accumulator.foldl_add_streaming net _ state.streaming]
    exact state.streaming
  case peaks =>
    rw [applied.nullAcc, PQAccum.Accumulator.foldl_add_streaming net _ state.streaming]
    exact foldl_pushPeak_width _ state.peaks
  case cmTree =>
    have leaves : cmLeavesFromTxs (forge nonce extra fees chain).txs = [] := by
      rw [forge_txs state]
      exact carried.noLeaves
    rw [applied.cmTree, leaves]
    exact state.cmTree

end Sections

/-! ## Runs of empty blocks -/

/-- Empty blocks with one nonce on top of a chain. -/
def idle (nonce : Nat) (base : List Block) : Nat → List Block
  | 0 => []
  | count + 1 => forge nonce [] 0 (idle nonce base count ++ base) :: idle nonce base count

@[simp] theorem length_idle (nonce : Nat) (base : List Block) (count : Nat) :
    (idle nonce base count).length = count := by
  induction count with
  | zero => rfl
  | succ count ih => rw [idle, List.length_cons, ih]

theorem Carried.none (chain : List Block) : Carried chain [] 0 where
  few := Nat.zero_le 1
  normal := fun _ member => absurd member List.not_mem_nil
  noLeaves := rfl
  noPQ := rfl
  outputs := fun _ member => absurd member List.not_mem_nil
  small := Nat.zero_le _
  tally := fun _ _ => ⟨_, rfl⟩

/-- What a run of empty blocks leaves as it was. -/
structure Quiet (base chain : List Block) : Prop where
  state : Net chain
  swaps : (replay net chain).swaps = (replay net base).swaps
  swapNonces : (replay net chain).swapNonces = (replay net base).swapNonces
  spent : (chainLists net chain).spent = (chainLists net base).spent
  tags : (chainLists net chain).tags = (chainLists net base).tags
  coins : ∃ more, (chainLists net chain).coins = (chainLists net base).coins ++ more ∧
    ∀ coin ∈ more, ∃ k, 0 < k ∧ k ≤ chain.length ∧ coin.key = payoutKey k
  primes : ∃ more, (chainLists net chain).outPrimes = (chainLists net base).outPrimes ++ more ∧
    ∀ prime ∈ more, ∃ k, 0 < k ∧ k ≤ chain.length ∧ prime = hexstr (payoutKey k)

theorem Quiet.refl {base : List Block} (state : Net base) : Quiet base base where
  state := state
  swaps := rfl
  swapNonces := rfl
  spent := rfl
  tags := rfl
  coins := ⟨[], (List.append_nil _).symm, fun _ member => absurd member List.not_mem_nil⟩
  primes := ⟨[], (List.append_nil _).symm, fun _ member => absurd member List.not_mem_nil⟩

/-- An empty block keeps a chain quiet. -/
theorem Quiet.extend {base chain : List Block} (quiet : Quiet base chain) {nonce : Nat}
    (small : chain.length < 2000) : Quiet base (forge nonce [] 0 chain :: chain) := by
  obtain ⟨cb, applied, _⟩ :=
    @forge_applied chain quiet.state nonce [] 0 small (Carried.none chain)
  have txs := @forge_txs chain quiet.state nonce [] 0
  have lists := @forge_lists chain quiet.state nonce [] 0
  constructor
  case state => exact quiet.state.extend small (Carried.none chain)
  case swaps => rw [applied.swaps, txs, ← quiet.swaps]; rfl
  case swapNonces => rw [applied.swapNonces, txs, ← quiet.swapNonces]; rfl
  case spent =>
    rw [chainLists, StoreLists.append, lists, ← quiet.spent]
    exact List.append_nil _
  case tags =>
    rw [chainLists, StoreLists.append, lists, ← quiet.tags]
    exact List.append_nil _
  case coins =>
    obtain ⟨more, split, keys⟩ := quiet.coins
    rw [chainLists, StoreLists.append, lists, split]
    refine ⟨_, List.append_assoc _ _ _, fun coin member => ?_⟩
    rcases List.mem_append.mp member with old | fresh
    · obtain ⟨k, positive, below, key⟩ := keys coin old
      exact ⟨k, positive, by rw [List.length_cons]; omega, key⟩
    · obtain rfl := List.mem_singleton.mp fresh
      exact ⟨chain.length + 1, Nat.succ_pos _, by rw [List.length_cons], rfl⟩
  case primes =>
    obtain ⟨more, split, keys⟩ := quiet.primes
    rw [chainLists, StoreLists.append, lists, split]
    refine ⟨_, List.append_assoc _ _ _, fun prime member => ?_⟩
    rcases List.mem_append.mp member with old | fresh
    · obtain ⟨k, positive, below, same⟩ := keys prime old
      exact ⟨k, positive, by rw [List.length_cons]; omega, same⟩
    · obtain rfl := List.mem_singleton.mp fresh
      exact ⟨chain.length + 1, Nat.succ_pos _, by rw [List.length_cons], rfl⟩

theorem quiet_idle {base : List Block} (state : Net base) (nonce count : Nat)
    (small : base.length + count ≤ 2000) : Quiet base (idle nonce base count ++ base) := by
  induction count with
  | zero => exact Quiet.refl state
  | succ count ih =>
    exact (ih (by omega)).extend (by rw [List.length_append, length_idle]; omega)

/-- The id of a block with a given height and nonce. -/
def idAt (height nonce : Nat) : Hash :=
  List.replicate 16 0 ++ putU64 height ++ putU64 nonce

theorem idAt_inj {height height' nonce nonce' : Nat} (small : height < 2 ^ 64)
    (small' : height' < 2 ^ 64) (word : nonce < 2 ^ 64) (word' : nonce' < 2 ^ 64)
    (same : idAt height nonce = idAt height' nonce') : height = height' ∧ nonce = nonce' := by
  rw [idAt, idAt, List.append_assoc, List.append_assoc] at same
  obtain ⟨-, rest⟩ := List.append_inj same rfl
  have widths : (putU64 height).length = (putU64 height').length := by simp [putU64]
  obtain ⟨first, second⟩ := List.append_inj rest widths
  exact ⟨bigEndian_inj 8 (by omega) (by omega) first, bigEndian_inj 8 (by omega) (by omega) second⟩

theorem forge_id {chain : List Block} (state : Net chain) (nonce : Nat)
    (extra : List Transaction) (fees : UInt64) :
    (forge nonce extra fees chain).header.id net = idAt (chain.length + 1) nonce := by
  rw [id_eq _ prevHash_length, forge_height state]
  rfl

end Obscura.Forge
