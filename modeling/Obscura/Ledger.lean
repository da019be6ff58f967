import Obscura.Store

/-! # The consensus state

The consensus state of a node: the stores and accumulators, the live swap and
vault contracts, the nullifier and anchor sets, the emission counters and the
active header chain. The residual part, which no header root covers, is
committed by `stateRootOf`.
-/

namespace Obscura

open Wire Tx

/-- A live atomic-swap contract. -/
@[ext] structure SwapEntry where
  amount : UInt64
  claimKey : Bytes
  refundKey : Bytes
  unlockHeight : UInt64
  claimR : Bytes
  claimT : Bytes
deriving DecidableEq

/-- A live staking-vault deposit; the rate is the one in force at deposit. -/
@[ext] structure VaultEntry where
  amount : UInt64
  term : UInt64
  rateBps : UInt64
  ownerKey : Bytes
  depositHeight : UInt64
deriving DecidableEq

namespace VaultEntry

/-- The first height at which a vault may be claimed. -/
def maturity (v : VaultEntry) : Nat := v.depositHeight.toNat + v.term.toNat

/-- A flexible vault has no term. -/
def isFlexible (v : VaultEntry) : Bool := v.term == 0

end VaultEntry

/-- Membership in a `map[string]bool`: an absent key reads as false. -/
def inSet (set : GoMap Bool) (key : Bytes) : Bool := set[key]?.getD false

/-- Set keys of a `map[string]bool` to true, one after the other. -/
def markAll (set : GoMap Bool) (keys : List Bytes) : GoMap Bool :=
  keys.foldl (fun set key => set.insert key true) set

theorem lookup_markAll (set : GoMap Bool) (keys : List Bytes) (key : Bytes) :
    (markAll set keys)[key]? = if key ∈ keys then some true else set[key]? := by
  induction keys generalizing set with
  | nil => simp [markAll]
  | cons head keys ih =>
    change (markAll (set.insert head true) keys)[key]? = _
    rw [ih, OrdMap.lookup_insert]
    by_cases later : key ∈ keys
    · simp [later]
    · by_cases same : key = head <;> simp [later, same, Ne.symm]

/-- The consensus state of a chain. -/
structure Ledger where
  acc : Accumulator
  spent : DiskSet := {}
  coins : CoinStore := {}
  tags : DiskSet := {}
  outPrimes : DiskSet := {}
  swaps : GoMap SwapEntry := ∅
  swapNonces : GoMap Bool := ∅
  vaults : GoMap VaultEntry := ∅
  accValues : GoMap Bool := ∅
  headers : List Header := []
  byHash : GoMap Nat := ∅
  emitted : UInt64 := 0
  incentivePool : UInt64 := 0
  referral : GoMap UInt64 := ∅
  nullAcc : PQAccum.Accumulator := .newStreaming
  pqAcc : PQAccum.Accumulator := .new
  pqUtxo : GoMap PQOutput := ∅
  pqIndex : GoMap Int64 := ∅
  pqNull : GoMap Bool := ∅
  pqRoots : GoMap Bool := ∅
  cmTree : EpochIMT
  cmRoots : GoMap Bool := ∅
  cmFinal : GoMap Bool := ∅
  cmRootOrder : List Bytes := []
  zkNull : GoMap Bool := ∅
deriving DecidableEq

namespace Ledger

/-- The state before the genesis block, over empty stores. -/
def empty (V : Primitives) : Ledger where
  acc := .newValueOnly V
  cmTree := .new V Config.zkDepth

/-- The last header. -/
def tip? (L : Ledger) : Option Header := L.headers.getLast?

/-- An unspent output is a coin whose key is not in the spent set. -/
def utxoEntry (L : Ledger) (ref : Bytes) : Option CoinInfo :=
  if L.spent.has (hexstr ref) then none else L.coins.coinByKey ref

/-- The coin at a pool position, when it is mature at `height`. -/
def poolMember (L : Ledger) (height index : Nat) : Option CoinInfo :=
  (L.coins.coinByIndex index).filter fun coin =>
    !(coin.isCoinbase && height < coin.height + Config.coinbaseMaturity)

/-- The ring of a complete pool all of whose members are mature. -/
def poolMembers (L : Ledger) (poolID height : Nat) : Option (List CoinInfo) :=
  if Config.poolSize = 0 ∨ (2 ^ 64 - 1 - Config.poolSize) / Config.poolSize < poolID then
    none
  else
    let start := poolID * Config.poolSize
    if L.coins.coinCount < start + Config.poolSize then
      none
    else
      (List.range' start Config.poolSize).mapM (L.poolMember height)

end Ledger

/-! ## The state root -/

/-- The consensus state that no other header root binds. -/
structure ResidualState where
  emitted : UInt64
  incentivePool : UInt64
  spentCommit : SetCommit
  tagsCommit : SetCommit
  outPrimeCommit : SetCommit
  swapNonces : GoMap Bool
  accValues : GoMap Bool
  pqNull : GoMap Bool
  pqRoots : GoMap Bool
  cmRoots : GoMap Bool
  cmFinal : GoMap Bool
  zkNull : GoMap Bool
  referral : GoMap UInt64
  pqIndex : GoMap Int64
  cmRootOrder : List Bytes
  swaps : GoMap SwapEntry
  vaults : GoMap VaultEntry
  pqUtxo : GoMap PQOutput
deriving DecidableEq

namespace StateRoot

/-- A word of the state's encoding. -/
def putWord (word : UInt64) : Bytes := putU64 word.toNat

/-- A set commitment in 32 bytes. -/
def putCommit (commit : SetCommit) : Bytes := bigEndian 32 commit.toNat

/-- The sorted keys of a boolean set; the values are not written. -/
def boolSet (name : String) (set : GoMap Bool) : Bytes :=
  ascii name ++ putList putBytes set.keys

/-- A map as its counted entries in key order. -/
def putMap {β : Type} (name : String) (putValue : β → Bytes) (map : GoMap β) : Bytes :=
  ascii name ++ putList (fun entry => putBytes entry.1 ++ putValue entry.2) map.toList

/-- A contract in the state's encoding. -/
def putSwap (entry : SwapEntry) : Bytes :=
  putWord entry.amount ++ putWord entry.unlockHeight ++ putBytes entry.claimKey ++
    putBytes entry.refundKey ++ putBytes entry.claimR ++ putBytes entry.claimT

/-- A vault in the state's encoding. -/
def putVault (entry : VaultEntry) : Bytes :=
  putWord entry.amount ++ putWord entry.term ++ putWord entry.rateBps ++
    putWord entry.depositHeight ++ putBytes entry.ownerKey

/-- A post-quantum output in the state's encoding. -/
def putPQOutput (output : PQOutput) : Bytes :=
  putWord output.amount ++ putBytes output.oneTimeKey ++ putBytes output.kemCiphertext ++
    putBytes output.viewTag ++ putBytes output.commitment ++ putBytes output.encAmount ++
    putBytes output.mac

/-- The byte string hashed into the state root. -/
def preimage (c : ResidualState) : Bytes :=
  ascii "OBX-stateroot-v1" ++
    ascii "|emit|" ++ putWord c.emitted ++ putWord c.incentivePool ++
    ascii "|dsets|" ++ putCommit c.spentCommit ++ putCommit c.tagsCommit ++
    putCommit c.outPrimeCommit ++
    boolSet "|swapNonces|" c.swapNonces ++
    boolSet "|accValues|" c.accValues ++
    boolSet "|pqNull|" c.pqNull ++
    boolSet "|pqRoots|" c.pqRoots ++
    boolSet "|cmRoots|" c.cmRoots ++
    boolSet "|cmFinal|" c.cmFinal ++
    boolSet "|zkNull|" c.zkNull ++
    putMap "|referral|" putWord c.referral ++
    putMap "|pqIndex|" (fun index : Int64 => putWord index.toUInt64) c.pqIndex ++
    ascii "|cmRootOrder|" ++ putList putBytes c.cmRootOrder ++
    putMap "|swaps|" putSwap c.swaps ++
    putMap "|vaults|" putVault c.vaults ++
    putMap "|pqUtxo|" putPQOutput c.pqUtxo

end StateRoot

/-- The residual-state commitment of the header. -/
def stateRootOf (V : Primitives) (c : ResidualState) : Hash :=
  V.blake2b (StateRoot.preimage c)

namespace Ledger

/-- What the state root covers beside the accumulators of the header. -/
def residual (L : Ledger) : ResidualState where
  emitted := L.emitted
  incentivePool := L.incentivePool
  spentCommit := L.spent.commit
  tagsCommit := L.tags.commit
  outPrimeCommit := L.outPrimes.commit
  swapNonces := L.swapNonces
  accValues := L.accValues
  pqNull := L.pqNull
  pqRoots := L.pqRoots
  cmRoots := L.cmRoots
  cmFinal := L.cmFinal
  zkNull := L.zkNull
  referral := L.referral
  pqIndex := L.pqIndex
  cmRootOrder := L.cmRootOrder
  swaps := L.swaps
  vaults := L.vaults
  pqUtxo := L.pqUtxo

/-- The root over the residual state. -/
def stateRoot (V : Primitives) (L : Ledger) : Hash := stateRootOf V L.residual

end Ledger

end Obscura
