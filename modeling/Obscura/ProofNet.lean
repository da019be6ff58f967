import Obscura.SwapReorg

/-! # Networks with other proofs

What a test network makes of a proof or a signature in a transaction can be replaced. On blocks
with nothing but a coinbase the two networks agree, so that the chains of such blocks are chains
of both, with the same states.
-/

namespace Obscura.ProofNet

open Wire Tx Checked Testnet

/-! ## What only reads the digest -/

section Digest

variable {V W : Primitives} (same : V.blake2b = W.blake2b)

include same

theorem mergePairs_congr (layer : List Hash) : mergePairs V layer = mergePairs W layer := by
  induction layer using mergePairs.induct with
  | case1 => rfl
  | case2 lone => simp only [mergePairs, internalHash, same]
  | case3 left right rest ih => simp only [mergePairs, internalHash, same, ih]

/-- The layers see the hash alone. -/
theorem mergeLayers_congr (rounds : Nat) (layer : List Hash) :
    mergeLayers V rounds layer = mergeLayers W rounds layer := by
  induction rounds generalizing layer with
  | zero => match layer with
      | [] => rfl
      | [_] => rfl
      | _ :: _ :: _ => rfl
  | succ rounds ih => match layer with
      | [] => rfl
      | [_] => rfl
      | first :: second :: rest =>
        change mergeLayers V rounds (mergePairs V (first :: second :: rest)) = _
        rw [mergePairs_congr same, ih]
        rfl

theorem promotePairs_congr (level : List Hash) :
    PQAccum.promotePairs V level = PQAccum.promotePairs W level := by
  induction level using PQAccum.promotePairs.induct with
  | case1 => rfl
  | case2 lone => rfl
  | case3 left right rest ih => simp only [PQAccum.promotePairs, PQAccum.nodeHash, same, ih]

/-- So do the peaks. -/
theorem rootOfLeaves_congr (rounds : Nat) (level : List Hash) :
    PQAccum.rootOfLeaves V rounds level = PQAccum.rootOfLeaves W rounds level := by
  induction rounds generalizing level with
  | zero => match level with
      | [] => rfl
      | [_] => rfl
      | _ :: _ :: _ => rfl
  | succ rounds ih => match level with
      | [] => rfl
      | [_] => rfl
      | first :: second :: rest =>
        change PQAccum.rootOfLeaves V rounds
          (PQAccum.promotePairs V (first :: second :: rest)) = _
        rw [promotePairs_congr same, ih]
        rfl

theorem pushPeak_congr (peak : PQAccum.Peak) (peaks : List PQAccum.Peak) :
    PQAccum.pushPeak V peak peaks = PQAccum.pushPeak W peak peaks := by
  induction peaks generalizing peak with
  | nil => rfl
  | cons newest older ih => simp only [PQAccum.pushPeak, PQAccum.nodeHash, same, ih]

theorem rootFromPeaks_congr (peaks : List PQAccum.Peak) :
    PQAccum.rootFromPeaks V peaks = PQAccum.rootFromPeaks W peaks := by
  cases peaks with
  | nil => rfl
  | cons newest older => simp only [PQAccum.rootFromPeaks, PQAccum.nodeHash, same]

theorem add_congr (acc : PQAccum.Accumulator) (data : Bytes) : acc.add V data = acc.add W data := by
  simp only [PQAccum.Accumulator.add, PQAccum.leafHash, same, pushPeak_congr same]

theorem root_congr (acc : PQAccum.Accumulator) : acc.root V = acc.root W := by
  simp only [PQAccum.Accumulator.root, rootFromPeaks_congr same, rootOfLeaves_congr same]

theorem rootAfter_congr (acc : PQAccum.Accumulator) (extra : List Bytes) :
    acc.rootAfter V extra = acc.rootAfter W extra := by
  have leaf : PQAccum.leafHash V = PQAccum.leafHash W := by
    funext data
    rw [PQAccum.leafHash, PQAccum.leafHash, same]
  simp only [PQAccum.Accumulator.rootAfter, root_congr same, rootFromPeaks_congr same,
    rootOfLeaves_congr same, pushPeak_congr same, leaf]

end Digest

/-! ## The network -/

/-- A network with the node hash and the verifiers of another one. -/
def patched (plain proofs : Primitives) : Primitives :=
  { plain with
    verifyOwnership := proofs.verifyOwnership
    verifyValueEquality := proofs.verifyValueEquality
    verifyKeyImage := proofs.verifyKeyImage
    verifyAnonSpendBytes := proofs.verifyAnonSpendBytes
    parseFullSig := proofs.parseFullSig
    verifyFull := proofs.verifyFull
    verifyConservationGen := proofs.verifyConservationGen
    unmarshalProof := proofs.unmarshalProof
    verifyNfMint := proofs.verifyNfMint
    verifyNfSpend := proofs.verifyNfSpend
    verifyCnfSpend := proofs.verifyCnfSpend
    wideHash2 := proofs.wideHash2 }

section Agree

variable {plain proofs : Primitives}

theorem merkleRoot_patched : merkleRoot (patched plain proofs) = merkleRoot plain := by
  funext txs
  exact mergeLayers_congr (V := patched plain proofs) (W := plain) rfl _ _

theorem checkRoots_patched {L : Ledger} {b : Block} (noLeaves : cmLeavesFromTxs b.txs = [])
    (primes : List Bytes) :
    checkRoots (patched plain proofs) L b primes = checkRoots plain L b primes := by
  unfold checkRoots
  rw [noLeaves, rootAfter_congr (V := patched plain proofs) (W := plain) rfl,
    rootAfter_congr (V := patched plain proofs) (W := plain) rfl]
  rfl

theorem validateBlock_patched {skip : Transaction → Bool} {now : Int} {L : Ledger} {b : Block}
    {cb : Transaction} (txs : b.txs = [cb]) (noLeaves : cmLeavesFromTxs b.txs = []) :
    validateBlockLocked (patched plain proofs) skip now L b =
      validateBlockLocked plain skip now L b := by
  unfold validateBlockLocked
  simp only [merkleRoot_patched, checkRoots_patched noLeaves, txs, List.tail_cons, List.foldlM_nil]
  rfl

theorem applyPQOutput_patched :
    applyPQOutput (patched plain proofs) = applyPQOutput plain := by
  funext L o
  simp only [applyPQOutput, add_congr (V := patched plain proofs) (W := plain) rfl]

theorem settleBlock_patched : settleBlock (patched plain proofs) = settleBlock plain := by
  funext b cb L
  have tag : applyTag (patched plain proofs) = applyTag plain := by
    funext L tag
    simp only [applyTag, add_congr (V := patched plain proofs) (W := plain) rfl]
    rfl
  have input : applyInput (patched plain proofs) = applyInput plain := by
    funext L input
    simp only [applyInput, tag]
    rfl
  have spends : applySpends (patched plain proofs) = applySpends plain := by
    funext L t
    simp only [applySpends, input, tag]
    rfl
  simp only [settleBlock, spendAndFund, recordPQRoot, spends,
    root_congr (V := patched plain proofs) (W := plain) rfl]
  rfl

theorem applyBlock_patched {L : Ledger} {b : Block} (noLeaves : cmLeavesFromTxs b.txs = []) :
    applyBlock (patched plain proofs) L b = applyBlock plain L b := by
  have leaves (L : Ledger) : applyLeaves (patched plain proofs) b.txs
      (applyAccumulator (patched plain proofs) b.txs L) =
        applyLeaves plain b.txs (applyAccumulator plain b.txs L) := by
    rw [applyLeaves, applyLeaves, noLeaves]
    rfl
  unfold applyBlock
  simp only [leaves, applyPQOutput_patched, settleBlock_patched]
  rfl

/-! ## Chains without notes -/

/-- A chain whose blocks are coinbases alone. -/
def Bare (chain : List Block) : Prop :=
  ∀ b ∈ chain, ∃ cb, b.txs = [cb] ∧ cmLeavesFromTxs b.txs = []

/-- The genesis is the same where the blank roots are. -/
theorem genesis_patched (zeros : ∀ depth ≤ Config.zkDepth,
      zeroRoot (patched plain proofs) depth = zeroRoot plain depth) :
    genesisLedger (patched plain proofs) = genesisLedger plain := by
  have filled : (List.range Config.zkDepth).map (zeroRoot (patched plain proofs)) =
      (List.range Config.zkDepth).map (zeroRoot plain) :=
    List.map_congr_left fun depth listed => zeros depth (List.mem_range.mp listed).le
  have tree : EpochIMT.new (patched plain proofs) Config.zkDepth =
      EpochIMT.new plain Config.zkDepth := by
    rw [EpochIMT.new, EpochIMT.new, IMT256.new, IMT256.new, filled, zeros _ (Nat.le_refl _)]
  have empty : Ledger.empty (patched plain proofs) = Ledger.empty plain := by
    rw [Ledger.empty, Ledger.empty, tree]
    rfl
  have genesis : genesisBlock (patched plain proofs) = genesisBlock plain := by
    funext L
    rw [genesisBlock, genesisBlock, merkleRoot_patched]
    rfl
  rw [genesisLedger, genesisLedger, empty, genesis, applyBlock_patched rfl]

theorem chained_patched (zeros : ∀ depth ≤ Config.zkDepth,
      zeroRoot (patched plain proofs) depth = zeroRoot plain depth)
    {chain : List Block} (bare : Bare chain)
    (chained : Chained plain (Verified plain) chain) :
    Chained (patched plain proofs) (Verified (patched plain proofs)) chain ∧
      replay (patched plain proofs) chain = replay plain chain := by
  induction chain with
  | nil => exact ⟨trivial, genesis_patched zeros⟩
  | cons b older ih =>
    obtain ⟨below, ⟨now, accepted⟩, run⟩ := chained
    obtain ⟨cb, txs, noLeaves⟩ := bare b List.mem_cons_self
    obtain ⟨chained, state⟩ := ih (fun b member => bare b (List.mem_cons_of_mem _ member)) below
    have applied : applyBlock (patched plain proofs) (replay (patched plain proofs) older) b =
        applyBlock plain (replay plain older) b := by
      rw [state, applyBlock_patched noLeaves]
    refine ⟨⟨chained, ⟨now, ?_⟩, ?_⟩, ?_⟩
    · rw [state, validateBlock_patched txs noLeaves]
      exact accepted
    · rw [applied]
      exact run
    · rw [replay, replay, applied]

theorem Bare.idle {nonce count : Nat} {base : List Block} (bare : Bare base) :
    Bare (Forge.idle nonce base count ++ base) := by
  induction count with
  | zero => exact bare
  | succ count ih =>
    intro b member
    rcases List.mem_cons.mp member with rfl | older
    · exact ⟨_, rfl, rfl⟩
    · exact ih b older

end Agree

/-! ## Blocks with notes -/

/-- The next block with the given transactions behind its coinbase. -/
def pack (V : Primitives) (extra : List Transaction) (fees : UInt64) (chain : List Block) : Block :=
  let L := replay V chain
  let height := L.headers.length
  let txs := payout height 0 (reward L + fees) :: extra
  let por := List.replicate Config.porChallenges ⟨0, genesisCoinbase.serialize, []⟩
  { header :=
      { height
        prevHash := (L.tip?.map fun tip => tip.id V).getD zeroHash
        timestamp := genesisTimestamp + 120 * (height : Int)
        difficulty := 64
        merkleRoot := merkleRoot V txs
        accValue := [1]
        accSize := L.acc.size + (primesOf V txs).length
        nullRoot := L.nullAcc.rootAfter V (blockTagsFromTxs V txs)
        pqAccRoot := L.pqAcc.rootAfter V []
        cmRoot := L.cmTree.rootAfter V (cmLeavesFromTxs txs)
        numTxs := txs.length
        porRoot := porRootOf V por
        stateRoot := L.stateRoot V }
    txs, por }

/-- The verdict on a block at the time it carries. -/
def passes (V : Primitives) (L : Ledger) (b : Block) : Bool :=
  (validateBlockLocked V (fun _ => false) b.header.timestamp L b).toOption.isSome

theorem verified_of_passes {V : Primitives} {L : Ledger} {b : Block}
    (verdict : passes V L b = true) : Verified V L b := by
  refine ⟨b.header.timestamp, ?_⟩
  unfold passes at verdict
  generalize validateBlockLocked V _ _ L b = result at verdict ⊢
  cases result with
  | error text => exact nomatch verdict
  | ok _ => rfl

theorem chained_passes {V : Primitives} {chain : List Block} {b : Block}
    (chained : Chained V (Verified V) chain) (verdict : passes V (replay V chain) b = true) :
    Chained V (Verified V) (b :: chain) := by
  have verified := verified_of_passes verdict
  obtain ⟨now, accepted⟩ := verified
  obtain ⟨_, _, _, _, _, run, _⟩ :=
    (chained.mono fun _ _ => Verified.admitted).regular.step accepted
  refine ⟨chained, ⟨now, accepted⟩, ?_⟩
  rw [run]

end Obscura.ProofNet
