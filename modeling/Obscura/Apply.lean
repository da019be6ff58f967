import Obscura.ValidateBlock

/-! # Block application

`applyBlock` as the bookkeeping it performs on the consensus state, one function
for each numbered step of the source. The two error returns in the middle keep
the state reached, as the source does.
-/

namespace Obscura

open Wire Tx Checked

/-- The error that every refusal of validation wraps. -/
def errValidation : String := "chain: validation failed"

section Steps

variable (V : Primitives)

/-- An output as it is applied: with its transaction's coinbase flag. -/
def outputsOf (txs : List Transaction) : List (Bool × Output) :=
  txs.flatMap fun t => t.outputs.map fun o => (t.isCoinbase, o)

/-- The primes of the outputs that have one. -/
def primesOf (txs : List Transaction) : List Bytes :=
  (outputsOf txs).filterMap fun entry => V.hashToPrime entry.2.oneTimeKey entry.2.primeNonce

/-- Step 2: record an output's prime and create its coin. -/
def applyOutput (height : Nat) (L : Ledger) (entry : Bool × Output) : Except String Ledger :=
  let (isCoinbase, o) := entry
  match V.hashToPrime o.oneTimeKey o.primeNonce with
  | none => .ok L
  | some pb =>
    if L.acc.contains (ofBigEndian pb) then
      .error errValidation
    else
      .ok { L with
        outPrimes := L.outPrimes.add V (hexstr pb)
        coins := L.coins.addCoin o.oneTimeKey o.commitment height isCoinbase o.lockUntil }

/-- The batched accumulator update. -/
def applyAccumulator (txs : List Transaction) (L : Ledger) : Ledger :=
  { L with
    acc := L.acc.addBatch V ((primesOf V txs).map ofBigEndian).prod (primesOf V txs).length }

/-- Whitelist the epoch roots as spend anchors: finalized ones for good, the
current one in a rolling window. -/
def recordCMAnchor (L : Ledger) : Ledger :=
  if L.cmTree.totalCount = 0 then
    L
  else
    let finals := L.cmTree.finalized.map fun tree => hexstr tree.root
    let cmFinal := markAll L.cmFinal finals
    let cmRoots := markAll L.cmRoots finals
    let cur := hexstr L.cmTree.currentRoot
    let known := inSet cmRoots cur
    let cmRoots := if known then cmRoots else cmRoots.insert cur true
    let order := if known then L.cmRootOrder else L.cmRootOrder ++ [cur]
    let excess := order.length - Config.maxAnchorWindow
    { L with
      cmFinal := cmFinal
      cmRoots := OrdMap.eraseAll cmRoots ((order.take excess).filter fun oldest => !inSet cmFinal oldest)
      cmRootOrder := order.drop excess }

/-- Step 2c: append the commitment-tree leaves. -/
def applyLeaves (txs : List Transaction) (L : Ledger) : Ledger :=
  recordCMAnchor { L with cmTree := (cmLeavesFromTxs txs).foldl (EpochIMT.append V) L.cmTree }

/-- Step 2b: add a post-quantum output. -/
def applyPQOutput (L : Ledger) (o : PQOutput) : Except String Ledger :=
  let key := hexstr o.oneTimeKey
  if L.pqUtxo[key]?.isSome then
    .error errValidation
  else
    .ok { L with
      pqAcc := L.pqAcc.add V o.oneTimeKey
      pqIndex := L.pqIndex.insert key (Int64.ofNat L.pqAcc.len)
      pqUtxo := L.pqUtxo.insert key { oneTimeKey := o.oneTimeKey, amount := o.amount } }

/-- A state without outputs has no anchor to record. -/
def recordPQRoot (L : Ledger) : Ledger :=
  if 0 < L.pqAcc.len then
    { L with pqRoots := L.pqRoots.insert (hexstr (L.pqAcc.root V)) true }
  else
    L

/-- Record a nullifier in the tag set and in the nullifier accumulator. -/
def applyTag (L : Ledger) (tag : Bytes) : Ledger :=
  { L with tags := L.tags.add V (hexstr tag), nullAcc := L.nullAcc.add V tag }

/-- A spent output and its recorded key image; one of the wrong length is left out. -/
def applyInput (L : Ledger) (input : Input) : Ledger :=
  let L := { L with spent := L.spent.add V (hexstr input.outputRef) }
  if input.keyImage.length = 32 then applyTag V L (recordedTag V input.keyImage) else L

/-- Step 3: what a transaction spends. -/
def applySpends (L : Ledger) (t : Transaction) : Ledger :=
  if t.isCoinbase then
    L
  else
    let L := t.inputs.foldl (applyInput V) L
    let L := t.anonInputs.foldl (fun L input => applyTag V L (recordedTag V input.tag)) L
    { L with
      swaps := OrdMap.eraseAll L.swaps (t.swapInputs.map fun input => hexstr input.swapKey)
      pqUtxo := OrdMap.eraseAll L.pqUtxo (t.pqInputs.map fun input => hexstr input.outputRef)
      pqNull := markAll L.pqNull (t.pqInputs.map fun input => hexstr input.nullifier)
      zkNull := markAll L.zkNull (t.zkInputs.map (fun input => hexstr input.nullifier) ++
        t.czkSpends.map fun s => hexstr s.nullifier) }

/-- The contract that an output opens. -/
def swapEntryOf (so : SwapOut) : SwapEntry where
  amount := so.amount
  claimKey := so.claimKey
  refundKey := so.refundKey
  unlockHeight := so.unlockHeight
  claimR := so.claimR
  claimT := so.claimT

/-- Register a funded swap contract and its nonce. -/
def applySwapOutput (L : Ledger) (so : SwapOut) : Ledger :=
  { L with
    swaps := L.swaps.insert (hexstr so.swapKey) (swapEntryOf so)
    swapNonces := L.swapNonces.insert (hexstr so.claimR) true }

/-- Settle a vault claim: pay the stated yield from the pool and close the vault. -/
def applyVaultInput (L : Ledger) (input : VaultIn) : Ledger :=
  let key := hexstr input.vaultKey
  if L.vaults[key]?.isNone then
    L
  else
    { L with
      incentivePool := if input.yield ≤ L.incentivePool then L.incentivePool - input.yield else 0
      vaults := L.vaults.erase key }

/-- The vault that an output opens at a height, at the rate of its term. -/
def vaultEntryOf (height : Nat) (vo : VaultOut) : VaultEntry where
  amount := vo.amount
  term := vo.term
  rateBps := (Config.vaultRateBps vo.term).getD 0
  ownerKey := vo.ownerKey
  depositHeight := UInt64.ofNat height

/-- A vault is stored under its key. -/
def applyVaultOutput (height : Nat) (L : Ledger) (vo : VaultOut) : Ledger :=
  { L with vaults := L.vaults.insert (hexstr vo.vaultKey) (vaultEntryOf height vo) }

/-- Closed vaults leave before new ones enter. -/
def applyVaults (height : Nat) (L : Ledger) (t : Transaction) : Ledger :=
  if t.isCoinbase then
    L
  else
    t.vaultOutputs.foldl (applyVaultOutput height) (t.vaultInputs.foldl applyVaultInput L)

/-- Step 4: emission and the pool contribution, each with its overflow guard. -/
def applyEconomics (height : Nat) (referrerTag : Bytes) (L : Ledger) : Ledger :=
  if height = 0 then
    L
  else
    let (base, pool, _) := L.blockEconomics referrerTag
    { L with
      emitted := if L.emitted + base < L.emitted then ~~~0 else L.emitted + base
      incentivePool :=
        if L.incentivePool ≤ L.incentivePool + pool then L.incentivePool + pool
        else L.incentivePool }

/-- The checkpoint set and the header index. -/
def applyIndex (h : Header) (L : Ledger) : Ledger :=
  { L with
    accValues :=
      if L.accValues.size < Config.maxAnchorWindow then
        L.accValues.insert (hexstr (V.blake2b L.acc.value)) true
      else
        L.accValues
    headers := L.headers ++ [h]
    byHash := L.byHash.insert (h.id V) h.height }

/-- What the block spends, and the swap contracts it funds. -/
def spendAndFund (b : Block) (L : Ledger) : Ledger :=
  let L := recordPQRoot V L
  let L := b.txs.foldl (applySpends V) L
  (b.txs.flatMap Transaction.swapOutputs).foldl applySwapOutput L

/-- Everything after the outputs have been added. -/
def settleBlock (b : Block) (cb : Transaction) (L : Ledger) : Ledger :=
  let L := b.txs.foldl (applyVaults b.header.height) (spendAndFund V b L)
  applyIndex V b.header (applyEconomics b.header.height cb.referrerTag L)

end Steps

/-- Apply a block, returning an error with the state reached. -/
def applyBlock (V : Primitives) (L : Ledger) (b : Block) : Option String × Ledger :=
  match b.txs.head? with
  | none => (some errValidation, L)
  | some cb =>
    if !cb.isCoinbase then
      (some errValidation, L)
    else
      match runUntil (applyOutput V b.header.height) L (outputsOf b.txs) with
      | (some error, L) => (some error, L)
      | (none, L) =>
        let L := applyLeaves V b.txs (applyAccumulator V b.txs L)
        match runUntil (applyPQOutput V) L (b.txs.flatMap Transaction.pqOutputs) with
        | (some error, L) => (some error, L)
        | (none, L) => (none, settleBlock V b cb L)

/-! ## Genesis -/

/-- The time of the first block. -/
def genesisTimestamp : Int := 1_700_000_000

/-- The transaction of the genesis block. -/
def genesisCoinbase : Transaction where
  isCoinbase := true
  conservation := ascii "OBSCURA-GENESIS-v1"

/-- The genesis block over a given pre-genesis state. -/
def genesisBlock (V : Primitives) (L : Ledger) : Block where
  header :=
    { height := 0
      prevHash := zeroHash
      timestamp := genesisTimestamp
      difficulty := Config.genesisDifficulty
      accValue := L.acc.value
      cmRoot := L.cmTree.currentRoot
      stateRoot := L.stateRoot V
      merkleRoot := merkleRoot V [genesisCoinbase]
      numTxs := 1 }
  txs := [genesisCoinbase]

/-- The consensus state after the genesis block of an empty database. -/
def genesisLedger (V : Primitives) : Ledger :=
  (applyBlock V (.empty V) (genesisBlock V (.empty V))).2

end Obscura
