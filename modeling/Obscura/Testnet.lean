import Obscura.Ideal
import Obscura.ReplayStores

/-! # A test network

Primitives whose proofs are transparent: a commitment shows its value, a signature
is the key followed by the message, every header meets its target, and only the
hash is left open. On this network a miner that includes no transaction can extend
any chain it has mined (`Testnet.mined_chained`), so there are valid chains of every
length and, with different nonces, valid branches at every height.
-/

namespace Obscura.Testnet

open Wire Tx Checked

/-! ## The primitives -/

/-- The value shown by a commitment. -/
def amountOf (commitment : Bytes) : Int := ofBigEndian (commitment.take 8)

/-- An injective pairing that grows by one byte on equal nodes. -/
def pairNodes (left right : Node) : Node :=
  if left = right then 2 :: left
  else 1 :: ((left.flatMap fun byte => [1, byte]) ++ 0 :: right)

/-- Primitives with a given hash whose checks compare what they are shown. -/
def primitives (hash : Bytes → Hash) : Primitives where
  blake2b := hash
  powHashSeed _ preimage := hash preimage
  powMeets _ _ := true
  pointDecodes _ := true
  pointIsIdentity _ := false
  verifyRangeBytes _ _ := true
  verifyOwnership outputRef proof ctx := proof == outputRef ++ ctx
  verifyValueEquality pseudo commitment proof ctx :=
    pseudo.take 8 == commitment.take 8 && proof == commitment ++ ctx
  canonicalNullifier := some
  verifyKeyImage outputRef keyImage _ _ := keyImage == outputRef
  verifyAnonSpendBytes _ _ _ _ _ _ := false
  parseFullSig bytes := if bytes.length = 64 then some ⟨bytes.take 32, bytes.drop 32⟩ else none
  verifyFull key ctx sig := sig.R == key && sig.s == ctx
  claimBindingOK _ _ _ := false
  aggregateKeyVerified _ _ _ _ := none
  verifyConservationGen ins outs publicIn publicOut _ _ :=
    (ins.map amountOf).sum + publicIn.toNat == (outs.map amountOf).sum + publicOut.toNat
  verifyCoinbaseConservation minted outs _ _ := (outs.map amountOf).sum == minted.toNat
  unmarshalProof _ := .error "no proofs"
  verifyNfMint _ _ _ _ := false
  verifyNfSpend _ _ _ _ _ := false
  verifyCnfSpend _ _ _ _ _ _ := false
  wideHash2 := pairNodes
  hybridVerify _ _ _ _ _ := false
  hashToPrime oneTimeKey _ := some oneTimeKey
  groupGenerator := [1]
  groupExp _ _ := [1]

theorem escape_injective {left left' right right' : Node}
    (same : (left.flatMap fun byte => [1, byte]) ++ 0 :: right =
      (left'.flatMap fun byte => [1, byte]) ++ 0 :: right') :
    left = left' ∧ right = right' := by
  induction left generalizing left' with
  | nil =>
    cases left' with
    | nil => exact ⟨rfl, by simpa using same⟩
    | cons byte left' => simp at same
  | cons byte left ih =>
    cases left' with
    | nil => simp at same
    | cons byte' left' =>
      simp only [List.flatMap_cons, List.cons_append, List.nil_append, List.cons.injEq,
        true_and] at same
      obtain ⟨rfl, rest⟩ := same
      obtain ⟨rfl, rfl⟩ := ih rest
      exact ⟨rfl, rfl⟩

theorem pairNodes_injective : Function.Injective2 pairNodes := by
  intro left left' right right' same
  unfold pairNodes at same
  split at same <;> split at same
  · simp_all
  · simp at same
  · simp at same
  · exact escape_injective (List.cons.inj same).2

theorem pairNodes_nonzero (left right : Node) : pairNodes left right ≠ zeroHash := by
  unfold pairNodes
  split <;> simp [zeroHash, List.replicate_succ]

theorem amountOf_nonneg (commitment : Bytes) : 0 ≤ amountOf commitment :=
  Int.natCast_nonneg _

theorem amountOf_lt (commitment : Bytes) : amountOf commitment < 2 ^ 64 := by
  have bound := ofBigEndian_lt (commitment.take 8)
  have length : (commitment.take 8).length ≤ 8 := by simp
  have power : 256 ^ (commitment.take 8).length ≤ 256 ^ 8 := Nat.pow_le_pow_right (by simp) length
  unfold amountOf
  omega

theorem amountOf_shown (word : UInt64) (blinding : Bytes) :
    amountOf (wU64 word ++ blinding) = word.toNat := by
  have bound := word.toNat_lt
  have width : (wU64 word).length = 8 := length_bigEndian 8 _
  rw [amountOf, List.take_left' width, wU64, putU64, ofBigEndian_bigEndian,
    Nat.mod_eq_of_lt (by omega)]

/-- A hash of the right width: the bytes as digits, modulo `2 ^ 256`. -/
def checksum (bytes : Bytes) : Hash :=
  bigEndian 32 (bytes.foldl (fun total byte => (total * 257 + byte.toNat + 1) % 2 ^ 256) 0)

theorem checksum_length (bytes : Bytes) : (checksum bytes).length = 32 :=
  length_bigEndian _ _

/-- On the test network the cryptography is ideal. -/
def ideal (hash : Bytes → Hash) : Ideal (primitives hash) where
  value := amountOf
  nullifierOf := id
  ringIndex _ _ _ _ _ _ := 0
  mintNote _ _ _ _ := default
  spending _ _ _ _ _ := default
  hiddenSpending _ _ _ _ _ _ := default
  sentNote _ _ _ _ _ _ := default
  range := fun {commitment _} _ => ⟨amountOf_nonneg commitment, amountOf_lt commitment⟩
  equality := by
    intro pseudo commitment proof ctx verified
    simp only [primitives, Bool.and_eq_true, beq_iff_eq] at verified
    rw [amountOf, amountOf, verified.1]
  conservation := by
    intro ins outs publicIn publicOut proof ctx verified
    simpa [primitives] using verified
  coinbase := by
    intro minted outs proof ctx verified
    simpa [primitives] using verified
  keyImage := by
    intro ref image proof ctx verified
    simpa [primitives] using verified
  anonSpend := by
    intro keys commits pseudo tag proof ctx verified
    simp [primitives] at verified
  mint := by
    intro amount leaf bind proof verified
    simp [primitives] at verified
  spend := by
    intro amount anchor nf bind proof verified
    simp [primitives] at verified
  confidential := by
    intro nf anchor leafOut fee bind proof verified
    simp [primitives] at verified

theorem collisionless (hash : Bytes → Hash) (hashed : Set (Node × Node)) :
    Collisionless (primitives hash) hashed :=
  .of_injective pairNodes_injective pairNodes_nonzero hashed

/-! ## Empty blocks -/

/-- The key of the coin minted at a height, lowest byte first. -/
def payoutKey (height : Nat) : Bytes := (bigEndian 32 height).reverse

@[simp] theorem payoutKey_length (height : Nat) : (payoutKey height).length = 32 := by
  simp [payoutKey]

theorem payoutKey_inj {first second : Nat} (firstSmall : first < 256 ^ 32)
    (secondSmall : second < 256 ^ 32) (same : payoutKey first = payoutKey second) :
    first = second :=
  bigEndian_inj 32 firstSmall secondSmall (List.reverse_inj.mp same)

/-- The coinbase of an empty block: one output, with the height as its key and the
nonce as its blinding. -/
def payout (height nonce : Nat) (minted : UInt64) : Transaction where
  isCoinbase := true
  outputs := [{
    oneTimeKey := payoutKey height
    txPubKey := zeroHash
    commitment := wU64 minted ++ bigEndian 24 nonce }]
  height := UInt64.ofNat height
  minted := minted

/-- What the miner of the next block may mint when it collects no fee. -/
def reward (L : Ledger) : UInt64 := (L.blockEconomics []).1 - (L.blockEconomics []).2.1

/-- The transactions of a chain from genesis on. -/
def bodies : List Block → List Transaction
  | [] => [genesisCoinbase]
  | b :: older => bodies older ++ b.txs

section Miner

variable (hash : Bytes → Hash)

/-- The answers to the retrievability challenges when every block holds one
transaction. -/
def answers (chain : List Block) (prevHash : Hash) (height : Nat) : List PoREntry :=
  (List.range Config.porChallenges).map fun slot =>
    let challenged := porChallengeHeight (primitives hash) prevHash slot height
    ⟨challenged, ((bodies chain)[challenged]?.getD genesisCoinbase).serialize, []⟩

/-- The next empty block on a chain of empty blocks. -/
def mine (nonce : Nat) (chain : List Block) : Block :=
  let V := primitives hash
  let L := replay V chain
  let prevHash := (L.tip?.map fun tip => tip.id V).getD zeroHash
  let height := L.headers.length
  let txs := [payout height nonce (reward L)]
  let por := answers hash chain prevHash height
  { header :=
      { height, prevHash, nonce
        timestamp := genesisTimestamp + height
        difficulty := L.expectedDifficulty
        merkleRoot := merkleRoot V txs
        accValue := [1]
        accSize := L.acc.size + 1
        nullRoot := L.nullAcc.rootAfter V []
        pqAccRoot := L.pqAcc.rootAfter V []
        cmRoot := L.cmTree.rootAfter V []
        numTxs := 1
        porRoot := porRootOf V por
        stateRoot := L.stateRoot V }
    txs, por }

/-- The chain of empty blocks with the given nonces, newest first. -/
def mined : List Nat → List Block
  | [] => []
  | nonce :: older => mine hash nonce (mined older) :: mined older

@[simp] theorem length_mined (nonces : List Nat) : (mined hash nonces).length = nonces.length := by
  induction nonces with
  | nil => rfl
  | cons nonce nonces ih => simp [mined, ih]

end Miner

/-! ## They are accepted -/

section Sizes

@[simp] theorem length_wB (bytes : Bytes) : (wB bytes).length = 4 + bytes.length := by
  simp [wB]

@[simp] theorem length_wU64 (word : UInt64) : (wU64 word).length = 8 := by
  simp [wU64, putU64]

@[simp] theorem length_putList_nil {α : Type} (encode : α → Bytes) :
    (putList encode []).length = 8 := by
  simp [putList, putU64]

/-- A coinbase is small. -/
theorem length_payout (height nonce : Nat) (minted : UInt64) :
    (payout height nonce minted).serialize.length ≤ 1000 := by
  have outputs : (putList Output.serialize (payout height nonce minted).outputs).length ≤ 500 := by
    simp only [payout, putList, Output.serialize, putU64, List.length_append, length_bigEndian,
      payoutKey_length, length_wB, length_wU64, List.flatMap_cons, List.flatMap_nil, List.append_nil, zeroHash,
      List.length_replicate, List.length_cons, List.length_nil]
    omega
  unfold Transaction.serialize
  simp only [List.length_append, length_bigEndian, length_wB, length_wU64]
  simp only [payout, length_putList_nil, wBool, List.length_cons, List.length_nil] at outputs ⊢
  omega

theorem length_genesisCoinbase : genesisCoinbase.serialize.length ≤ 1000 := by
  decide +kernel

theorem blank_length (depth : Nat) :
    (Frontier.blank pairNodes zeroHash depth).length = 32 + depth := by
  induction depth with
  | zero => rfl
  | succ depth ih =>
    change (pairNodes _ _).length = _
    rw [pairNodes, if_pos rfl, List.length_cons, ih]
    omega

theorem length_flatMap_le {α : Type} {encode : α → Bytes} {bound : Nat} {values : List α}
    (each : ∀ value ∈ values, (encode value).length ≤ bound) :
    (values.flatMap encode).length ≤ bound * values.length := by
  induction values with
  | nil => simp
  | cons value values ih =>
    have first := each value (by simp)
    have rest := ih fun other member => each other (List.mem_cons_of_mem _ member)
    rw [List.flatMap_cons, List.length_append, List.length_cons, Nat.mul_add]
    omega

end Sizes

/-! ### Reward -/

theorem reward_spec (L : Ledger) :
    (L.blockEconomics []).2.1 ≤ (L.blockEconomics []).1 ∧
      500_000_000_000 ≤ (reward L).toNat ∧ (reward L).toNat ≤ 40_000_000_000_000 := by
  have bounds := blockReward_bounds L.emitted
  have part := L.poolContribution_eq []
  change 600_000_000_000 ≤ (L.blockEconomics []).1.toNat ∧
    (L.blockEconomics []).1.toNat ≤ 40_000_000_000_000 at bounds
  have within : (L.blockEconomics []).2.1 ≤ (L.blockEconomics []).1 := by
    rw [UInt64.le_iff_toNat_le]
    omega
  rw [reward, UInt64.toNat_sub_of_le _ _ within]
  exact ⟨within, by omega, by omega⟩

theorem payout_conserves (hash : Bytes → Hash) (height nonce : Nat) (minted : UInt64)
    (proof ctx : Bytes) :
    (primitives hash).verifyCoinbaseConservation (payout height nonce minted).minted
      (commitmentList (payout height nonce minted).outputs) proof ctx = true := by
  change ([amountOf (wU64 minted ++ bigEndian 24 nonce)].sum == (minted.toNat : Int)) = true
  rw [amountOf_shown]
  simp

/-- The coinbase is accepted. -/
theorem checkCoinbase_payout (hash : Bytes → Hash) (L : Ledger) {b : Block} {fees : UInt64}
    (small : fees.toNat ≤ 1_000_000_000) (word : b.header.height < 2 ^ 64) (nonce : Nat) :
    checkCoinbase (primitives hash) L b (payout b.header.height nonce (reward L + fees)) fees =
      .ok () := by
  obtain ⟨within, _, upper⟩ := reward_spec L
  have sum : (reward L + fees).toNat = (reward L).toNat + fees.toNat := by
    rw [UInt64.toNat_add]
    omega
  have expected : L.expectedCoinbaseMinted fees [] = .ok (reward L + fees) := by
    unfold Ledger.expectedCoinbaseMinted
    simp only [bind_ok, reject_ok, exists_const, UInt64.not_lt, addU64_ok]
    exact ⟨within, sum⟩
  unfold checkCoinbase
  simp only [bind_ok, reject_ok, exists_const, ne_eq, not_not, UInt64.not_lt]
  refine ⟨_, expected, rfl, ?_, ?_, rfl, ?_⟩
  · have supply : Config.moneySupplyCap.toNat = 18_400_000_000_000_000_000 := by decide
    change reward L + fees ≤ _
    rw [UInt64.le_iff_toNat_le, supply, sum]
    omega
  · change (UInt64.ofNat b.header.height).toNat = b.header.height
    rw [UInt64.toNat_ofNat', Nat.mod_eq_of_lt word]
  · rw [payout_conserves]
    simp

/-! ### The header -/

theorem medianTimePast_lt_of {L : Ledger} {bound : Int} (positive : 0 < bound)
    (each : ∀ header ∈ L.headers, header.timestamp < bound) : L.medianTimePast < bound := by
  have recent : ∀ time ∈ (L.headers.drop (L.headers.length - 11)).map Header.timestamp,
      time < bound := by
    intro time member
    obtain ⟨header, recent, rfl⟩ := List.mem_map.mp member
    exact each header (List.mem_of_mem_drop recent)
  unfold Ledger.medianTimePast
  dsimp only
  generalize (L.headers.drop (L.headers.length - 11)).map Header.timestamp = times at recent
  cases middle : (times.insertionSort (· ≤ ·))[times.length / 2]? with
  | none => exact positive
  | some time =>
    have member := (List.perm_insertionSort (· ≤ ·) times).mem_iff.mp
      (List.mem_of_getElem? middle)
    exact recent time member

theorem powSeed_isSome (V : Primitives) {L : Ledger} {height : Nat}
    (next : L.headers.length = height) (positive : 0 < height) :
    ∃ seed, L.powSeed V height = some seed := by
  unfold Ledger.powSeed
  dsimp only
  split
  · exact ⟨_, rfl⟩
  · have inside : Config.powSeedHeight height < L.headers.length := by
      rw [next]
      unfold Config.powSeedHeight Config.powSeedLag
      split
      · omega
      · have below := Nat.div_mul_le_self (height - 512) Config.powEpochLen
        omega
    exact ⟨_, by rw [List.getElem?_eq_getElem inside]; rfl⟩

/-! ### Outputs -/

theorem key_new {V : Primitives} {L : Ledger} {lists : StoreLists} (stores : L.Stores V lists)
    {key : Bytes} (coins : ∀ coin ∈ lists.coins, coin.key ≠ key)
    (primes : hexstr key ∉ lists.outPrimes) :
    L.coins.coinByKey key = none ∧ L.outPrimes.has (hexstr key) = false := by
  constructor
  · refine stores.coins.unknown fun listed => ?_
    obtain ⟨coin, member, same⟩ := List.mem_map.mp listed
    exact coins coin member same
  · rw [← Bool.not_eq_true, stores.outPrimes.has]
    exact primes

/-- Outputs of new keys are accepted. -/
theorem checkOutputs_fresh (hash : Bytes → Hash) {L : Ledger} {seen : List Bytes} {o : Output}
    (widths : o.oneTimeKey.length = 32 ∧ o.txPubKey.length = 32 ∧ o.commitment.length = 32)
    (new : L.coins.coinByKey o.oneTimeKey = none ∧ L.outPrimes.has (hexstr o.oneTimeKey) = false)
    (unseen : hexstr o.oneTimeKey ∉ seen ∧ ascii "key:" ++ hexstr o.oneTimeKey ∉ seen) :
    checkOutputs (primitives hash) L false seen [o] =
      .ok ([o.oneTimeKey],
        hexstr o.oneTimeKey :: (ascii "key:" ++ hexstr o.oneTimeKey) :: seen) := by
  have sound : badPoint (primitives hash) o.oneTimeKey = false := rfl
  unfold checkOutputs
  simp only [List.foldlM_cons, List.foldlM_nil, bind_ok, pure_ok, checkOutput, reject_ok,
    orReject_ok, exists_const, widths, sound, new]
  refine ⟨_, ⟨_, ⟨by simp, by simp, by simp [primitives], o.oneTimeKey, rfl, unseen.1, unseen.2,
    by simp, by simp [new.2], rfl⟩, rfl⟩, rfl⟩

theorem payout_widths (height nonce : Nat) (minted : UInt64) :
    ∀ o ∈ (payout height nonce minted).outputs,
      o.oneTimeKey.length = 32 ∧ o.txPubKey.length = 32 ∧ o.commitment.length = 32 := by
  intro o member
  obtain rfl := List.mem_singleton.mp member
  simp [zeroHash]

section Accepted

variable {hash : Bytes → Hash}

/-- The state of a chain of empty blocks. -/
structure Idle (hash : Bytes → Hash) (chain : List Block) : Prop where
  chained : Chained (primitives hash) (Verified (primitives hash)) chain
  length : (replay (primitives hash) chain).headers.length = chain.length + 1
  bodyCount : (bodies chain).length = chain.length + 1
  headers : ∀ (k : Nat) (header : Header),
    (replay (primitives hash) chain).headers[k]? = some header →
      header.timestamp = genesisTimestamp + k ∧ header.numTxs = 1 ∧
        ∃ t, (bodies chain)[k]? = some t ∧ t.serialize.length ≤ 1000 ∧
          header.merkleRoot = leafHash (primitives hash) (t.hash (primitives hash))
  coins : ∀ coin ∈ (chainLists (primitives hash) chain).coins,
    ∃ k ≤ chain.length, coin.key = payoutKey k
  primes : ∀ prime ∈ (chainLists (primitives hash) chain).outPrimes,
    ∃ k ≤ chain.length, prime = hexstr (payoutKey k)
  nullAcc : (replay (primitives hash) chain).nullAcc = .newStreaming
  cmTree : (replay (primitives hash) chain).cmTree = .new (primitives hash) Config.zkDepth

/-- The chain of no blocks is idle. -/
theorem Idle.genesis : Idle hash [] := by
  obtain ⟨_, applied⟩ := genesis_applied (V := primitives hash)
  constructor
  case chained => exact trivial
  case length =>
    change (genesisLedger (primitives hash)).headers.length = _
    rw [applied.headers]
    rfl
  case bodyCount => rfl
  case headers =>
    intro k header found
    change (genesisLedger (primitives hash)).headers[k]? = _ at found
    rw [applied.headers] at found
    cases k with
    | zero =>
      obtain rfl := Option.some.inj found
      refine ⟨by simp [genesisBlock], rfl, genesisCoinbase, rfl, length_genesisCoinbase, rfl⟩
    | succ k => simp [Ledger.empty] at found
  case coins => intro coin member; simp [chainLists] at member
  case primes => intro prime member; simp [chainLists] at member
  case nullAcc =>
    change (genesisLedger (primitives hash)).nullAcc = _
    rw [applied.nullAcc]
    rfl
  case cmTree =>
    change (genesisLedger (primitives hash)).cmTree = _
    rw [applied.cmTree]
    rfl

/-! ### The sections of validation -/

section Sections

variable {chain : List Block} (idle : Idle hash chain)
  (width : ∀ bytes, (hash bytes).length = 32) (small : chain.length + 1 < 2 ^ 64)

include idle

theorem mine_height (nonce : Nat) : (mine hash nonce chain).header.height = chain.length + 1 :=
  idle.length

theorem medianTimePast_lt :
    (replay (primitives hash) chain).medianTimePast < genesisTimestamp + (chain.length + 1) := by
  have positive : (0 : Int) < genesisTimestamp := by decide
  refine medianTimePast_lt_of (by omega) fun header member => ?_
  obtain ⟨k, found⟩ := List.mem_iff_getElem?.mp member
  have bound := (List.getElem?_eq_some_iff.mp found).1
  rw [(idle.headers k header found).1]
  rw [idle.length] at bound
  omega

/-- The header that a retrievability challenge picks. -/
theorem challenge_spec (prevHash : Hash) (slot : Nat) :
    ∃ header t,
      (replay (primitives hash) chain).headers[porChallengeHeight (primitives hash) prevHash slot
        (chain.length + 1)]? = some header ∧ header.numTxs = 1 ∧
      (bodies chain)[porChallengeHeight (primitives hash) prevHash slot (chain.length + 1)]? =
        some t ∧ t.serialize.length ≤ 1000 ∧
      header.merkleRoot = leafHash (primitives hash) (t.hash (primitives hash)) := by
  have inside : porChallengeHeight (primitives hash) prevHash slot (chain.length + 1) <
      (replay (primitives hash) chain).headers.length := by
    rw [idle.length]
    unfold porChallengeHeight
    dsimp only
    generalize ofBigEndian _ = number
    have bound : number % (chain.length + 1 - porWindowLow (chain.length + 1)) <
        chain.length + 1 - porWindowLow (chain.length + 1) := by
      apply Nat.mod_lt
      unfold porWindowLow Config.porWindow
      omega
    omega
  obtain ⟨_, single, t, body, size, root⟩ :=
    idle.headers _ _ (List.getElem?_eq_getElem inside)
  exact ⟨_, t, List.getElem?_eq_getElem inside, single, body, size, root⟩

theorem answers_spec (prevHash : Hash) :
    (answers hash chain prevHash (chain.length + 1)).length = Config.porChallenges ∧
      ∀ entry ∈ answers hash chain prevHash (chain.length + 1),
        entry.steps = [] ∧ entry.txBytes.length ≤ 1000 := by
  refine ⟨by simp [answers], ?_⟩
  intro entry member
  obtain ⟨slot, _, rfl⟩ := List.mem_map.mp member
  obtain ⟨_, t, _, _, body, size, _⟩ := challenge_spec idle prevHash slot
  refine ⟨rfl, ?_⟩
  change ((bodies chain)[_]?.getD genesisCoinbase).serialize.length ≤ 1000
  rw [body]
  exact size

/-- The answers are accepted. -/
theorem validatePoR_mine (nonce : Nat) :
    validatePoRLocked (primitives hash) (replay (primitives hash) chain) (mine hash nonce chain) =
      .ok () := by
  have height := mine_height idle nonce
  have required : porRequired (mine hash nonce chain).header.height = true := by
    rw [height]
    simp [porRequired, Config.porChallenges]
  generalize prev : (mine hash nonce chain).header.prevHash = prevHash
  have entries : (mine hash nonce chain).por = answers hash chain prevHash (chain.length + 1) := by
    rw [← prev, ← idle.length]
    rfl
  unfold validatePoRLocked
  simp only [bind_ok, reject_ok, exists_const, required, Bool.not_true, Bool.false_eq_true,
    ↓reduceIte, ne_eq, not_not]
  refine ⟨rfl, ?_, rfl, ?_⟩
  · rw [entries, (answers_spec idle prevHash).1]
  · rw [entries, prev, height, forM_ok]
    rintro ⟨entry, slot⟩ member
    obtain ⟨header, t, found, single, body, _, root⟩ := challenge_spec idle prevHash slot
    have answer : entry = ⟨porChallengeHeight (primitives hash) prevHash slot (chain.length + 1),
        t.serialize, []⟩ := by
      have atSlot := List.mem_zipIdx_iff_getElem?.mp member
      simp only [answers, List.getElem?_map, Option.map_eq_some_iff] at atSlot
      obtain ⟨position, inRange, rfl⟩ := atSlot
      have same : position = slot := by
        obtain ⟨_, same⟩ := List.getElem?_eq_some_iff.mp inRange
        rw [← same, List.getElem_range]
      rw [same, body]
      rfl
    simp only [bind_ok, orReject_ok, reject_ok]
    refine ⟨header, found, ?_⟩
    rw [answer, single, root]
    simp [verifyPoREntry, verifyMerkleProof, indexFromSteps, porChallengeIndex, Nat.mod_one,
      Transaction.hash]

theorem cmRoot_length :
    ((replay (primitives hash) chain).cmTree.rootAfter (primitives hash) []).length = 48 := by
  have root : (EpochIMT.new (primitives hash) Config.zkDepth).rootAfter (primitives hash) [] =
      Frontier.blank pairNodes zeroHash Config.zkDepth := by
    simp only [EpochIMT.rootAfter, List.foldl_nil, EpochIMT.new, IMT256.new, zeroRoot, primitives]
  rw [idle.cmTree, root, blank_length, Config.zkDepth]

include width in
/-- The header is short. -/
theorem length_header (nonce : Nat) :
    (mine hash nonce chain).header.serialize.length ≤ 400 := by
  have regular := (idle.chained.mono fun L b => Verified.admitted).regular
  have prevHash : (mine hash nonce chain).header.prevHash.length = 32 := by
    change (Option.getD (Option.map _ _) zeroHash).length = 32
    cases (replay (primitives hash) chain).tip? with
    | none => rfl
    | some tip => exact width _
  have merkleRoot : (mine hash nonce chain).header.merkleRoot.length = 32 := width _
  have accValue : (mine hash nonce chain).header.accValue.length = 1 := rfl
  have pqAccRoot : (mine hash nonce chain).header.pqAccRoot.length = 32 := by
    change ((replay (primitives hash) chain).pqAcc.rootAfter _ []).length = 32
    rw [regular.noPQKey]
    rfl
  have nullRoot : (mine hash nonce chain).header.nullRoot.length = 32 := by
    change ((replay (primitives hash) chain).nullAcc.rootAfter _ []).length = 32
    rw [idle.nullAcc]
    rfl
  have cmRoot : (mine hash nonce chain).header.cmRoot.length = 48 := cmRoot_length idle
  have porRoot : (mine hash nonce chain).header.porRoot.length = 32 := by
    have root : (mine hash nonce chain).header.porRoot =
        porRootOf (primitives hash) (mine hash nonce chain).por := rfl
    rw [root, porRootOf]
    split
    · rfl
    · exact width _
  have stateRoot : (mine hash nonce chain).header.stateRoot.length = 32 := width _
  simp only [Header.serialize, Header.roots, wi64, putU64, List.length_append, length_bigEndian,
    length_wB, prevHash, merkleRoot, accValue, pqAccRoot, nullRoot, cmRoot, porRoot, stateRoot]
  omega

include width in
/-- The block is small. -/
theorem length_mine (nonce : Nat) :
    (mine hash nonce chain).serialize.length ≤ Config.maxBlockBytes := by
  have header := length_header idle width nonce
  have tx := length_payout (replay (primitives hash) chain).headers.length nonce
    (reward (replay (primitives hash) chain))
  obtain ⟨count, each⟩ := answers_spec idle (mine hash nonce chain).header.prevHash
  have entries : (mine hash nonce chain).por =
      answers hash chain (mine hash nonce chain).header.prevHash (chain.length + 1) := by
    rw [← idle.length]
    rfl
  have por : ((mine hash nonce chain).por.flatMap fun entry => wB entry.serialize).length ≤
      2000 * (mine hash nonce chain).por.length := by
    refine length_flatMap_le fun entry member => ?_
    rw [entries] at member
    obtain ⟨steps, size⟩ := each entry member
    simp only [PoREntry.serialize, putU64, steps, List.length_append, length_wB, length_bigEndian,
      List.flatMap_nil, List.length_nil]
    omega
  have txs : (mine hash nonce chain).txs = [payout (replay (primitives hash) chain).headers.length nonce
    (reward (replay (primitives hash) chain))] := rfl
  rw [entries, count] at por
  simp only [Block.serialize, putList, putU64, txs, entries, List.length_append, length_wB,
    length_bigEndian, List.flatMap_cons, List.flatMap_nil, List.append_nil, Config.maxBlockBytes,
    Config.porChallenges] at por ⊢
  omega

include small in
/-- The key of the next coinbase is new. -/
theorem nextKey_new :
    (replay (primitives hash) chain).coins.coinByKey (payoutKey (chain.length + 1)) = none ∧
      (replay (primitives hash) chain).outPrimes.has (hexstr (payoutKey (chain.length + 1))) =
        false := by
  have stores := (idle.chained.mono fun L b => Verified.admitted).stores
  have apart : ∀ k ≤ chain.length, payoutKey k ≠ payoutKey (chain.length + 1) := by
    intro k below same
    have := payoutKey_inj (by omega) (by omega) same
    omega
  refine key_new stores (fun coin member same => ?_) fun listed => ?_
  · obtain ⟨k, below, key⟩ := idle.coins coin member
    exact apart k below (key ▸ same)
  · obtain ⟨k, below, same⟩ := idle.primes _ listed
    exact apart k below (hexstr_injective same).symm

/-- The header is accepted. -/
theorem checkHeader_mine (width : ∀ bytes, (hash bytes).length = 32) (nonce : Nat) {tip : Header}
    (found : (replay (primitives hash) chain).tip? = some tip) :
    checkHeader (primitives hash) (genesisTimestamp + (chain.length + 1))
      (replay (primitives hash) chain) (mine hash nonce chain) tip = .ok () := by
  have regular := (idle.chained.mono fun L b => Verified.admitted).regular
  have height := mine_height idle nonce
  have tipHeight := regular.tip found
  have timestamp : (mine hash nonce chain).header.timestamp =
      genesisTimestamp + (chain.length + 1) := by
    change genesisTimestamp + (((replay (primitives hash) chain).headers.length : Nat) : Int) = _
    rw [idle.length]
    push_cast
    rfl
  obtain ⟨seed, seedFound⟩ := powSeed_isSome (primitives hash) idle.length (Nat.succ_pos _)
  refine checkHeader_ok.mpr ?_
  constructor
  case size => exact length_mine idle width nonce
  case height => rw [height, tipHeight, idle.length]
  case prevHash =>
    change (Option.map (fun tip : Header => tip.id (primitives hash)) _).getD zeroHash = _
    rw [found]
    rfl
  case positive => exact (nextDifficulty_pos _ _).ne'
  case notFuture =>
    rw [timestamp]
    unfold Config.maxFutureDriftSeconds
    omega
  case afterMedian =>
    rw [timestamp]
    exact medianTimePast_lt idle
  case difficulty => rfl
  case work => exact ⟨seed, by rw [height]; exact seedFound, rfl⟩

include width small in
/-- **An empty block is accepted.** -/
theorem mine_verified (nonce : Nat) :
    Verified (primitives hash) (replay (primitives hash) chain) (mine hash nonce chain) := by
  have regular := (idle.chained.mono fun L b => Verified.admitted).regular
  refine ⟨genesisTimestamp + (chain.length + 1), ?_⟩
  obtain ⟨tip, found⟩ : ∃ tip, (replay (primitives hash) chain).tip? = some tip :=
    ⟨_, List.getLast?_eq_some_getLast regular.started⟩
  have txs : (mine hash nonce chain).txs =
      [payout (chain.length + 1) nonce (reward (replay (primitives hash) chain))] := by
    rw [← idle.length]
    rfl
  unfold validateBlockLocked
  simp only [bind_ok, reject_ok, orReject_ok, exists_const, Prod.exists, ne_eq, not_not]
  refine ⟨tip, found, (), checkHeader_mine idle width nonce found,
    payout (chain.length + 1) nonce (reward (replay (primitives hash) chain)), ?_,
    _, _, checkOutputs_fresh hash (payout_widths _ _ _ _ List.mem_cons_self)
      (nextKey_new idle small) (by simp), (), checkCoinbaseLegs_ok.mpr ?_, ?_⟩
  · have isCoinbase : (payout (chain.length + 1) nonce
        (reward (replay (primitives hash) chain))).isCoinbase = true := rfl
    unfold checkTxList
    rw [txs]
    generalize payout _ _ _ = cb at isCoinbase ⊢
    simp [isCoinbase, reject]
  · constructor <;> rfl
  · have rest : (mine hash nonce chain).txs.tail = [] := by rw [txs]; rfl
    rw [rest]
    refine ⟨_, rfl, (), ?_, (), ?_, rfl, (), validatePoR_mine idle nonce, ?_⟩
    · simp [checkVaultYields, txs, payout]
    · have word : (mine hash nonce chain).header.height < 2 ^ 64 := by
        rw [mine_height idle]
        exact small
      have none : (0 : UInt64).toNat ≤ 1_000_000_000 := Nat.zero_le _
      have check := checkCoinbase_payout hash (replay (primitives hash) chain) none word nonce
      rw [UInt64.add_zero, mine_height idle] at check
      exact check
    · unfold checkRoots
      simp only [bind_ok, reject_ok, exists_const, ne_eq, not_not]
      exact ⟨rfl, rfl, rfl, rfl, rfl, rfl⟩

include width small in
/-- **An empty block** on an idle chain. -/
theorem Idle.extend (nonce : Nat) : Idle hash (mine hash nonce chain :: chain) := by
  have verified := mine_verified idle width small nonce
  obtain ⟨now, accepted⟩ := id verified
  have regular := (idle.chained.mono fun L b => Verified.admitted).regular
  obtain ⟨cb, _, L', _, height, run, applied, _⟩ := regular.step accepted
  have state : replay (primitives hash) (mine hash nonce chain :: chain) = L' := by
    rw [replay, run]
  have txs : (mine hash nonce chain).txs =
      [payout (chain.length + 1) nonce (reward (replay (primitives hash) chain))] := by
    rw [← idle.length]
    rfl
  constructor
  case chained => exact ⟨idle.chained, verified, by rw [run]⟩
  case length =>
    rw [state, applied.headers, List.length_append, idle.length]
    rfl
  case bodyCount =>
    rw [bodies, List.length_append, idle.bodyCount, txs]
    rfl
  case headers =>
    intro k header found
    rw [state, applied.headers] at found
    by_cases old : k < (replay (primitives hash) chain).headers.length
    · rw [List.getElem?_append_left old] at found
      obtain ⟨timestamp, single, t, body, size, root⟩ := idle.headers k header found
      have inside : k < (bodies chain).length := by
        rw [idle.bodyCount, ← idle.length]
        exact old
      exact ⟨timestamp, single, t, (List.getElem?_append_left inside).trans body, size, root⟩
    · rw [List.getElem?_append_right (by omega), List.getElem?_singleton] at found
      split at found
      · rename_i position
        obtain rfl := Option.some.inj found
        obtain rfl : k = chain.length + 1 := by
          rw [idle.length] at old position
          omega
        refine ⟨?_, rfl, payout (chain.length + 1) nonce (reward (replay (primitives hash) chain)), ?_,
          length_payout _ _ _, ?_⟩
        · change genesisTimestamp + (((replay (primitives hash) chain).headers.length : Nat) : Int) = _
          rw [idle.length]
        · rw [bodies, txs, List.getElem?_append_right idle.bodyCount.le, idle.bodyCount]
          simp
        · change merkleRoot (primitives hash) (mine hash nonce chain).txs = _
          rw [txs]
          rfl
      · exact absurd found (by simp)
  case coins =>
    intro coin member
    rw [chainLists, StoreLists.append, List.mem_append] at member
    rcases member with old | fresh
    · obtain ⟨k, below, key⟩ := idle.coins coin old
      exact ⟨k, by rw [List.length_cons]; omega, key⟩
    · rw [blockLists, txs] at fresh
      obtain rfl := List.mem_singleton.mp fresh
      exact ⟨chain.length + 1, by simp, rfl⟩
  case primes =>
    intro prime member
    rw [chainLists, StoreLists.append, List.mem_append] at member
    rcases member with old | fresh
    · obtain ⟨k, below, same⟩ := idle.primes prime old
      exact ⟨k, by rw [List.length_cons]; omega, same⟩
    · rw [blockLists, txs] at fresh
      obtain rfl := List.mem_singleton.mp fresh
      exact ⟨chain.length + 1, by simp, rfl⟩
  case nullAcc =>
    rw [state, applied.nullAcc, ← idle.nullAcc, txs]
    rfl
  case cmTree =>
    rw [state, applied.cmTree, ← idle.cmTree, txs]
    rfl

end Sections

theorem idle_mined (width : ∀ bytes, (hash bytes).length = 32) (nonces : List Nat)
    (small : nonces.length < 2 ^ 64) : Idle hash (mined hash nonces) := by
  induction nonces with
  | nil => exact Idle.genesis
  | cons nonce nonces ih =>
    rw [List.length_cons] at small
    exact (ih (by omega)).extend width (by rw [length_mined]; exact small) nonce

end Accepted

end Obscura.Testnet
