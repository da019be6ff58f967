import Obscura.Accum
import Obscura.Lib.OrdMap
import Mathlib.Data.Fintype.Basic

/-! # Disk-backed stores

The append-only membership set of `diskset.go` and the coin store of
`coinstore.go`. Both keep their entries in buckets indexed by insertion order,
with only a counter (and for the set a running commitment) in memory; a rollback
truncates the buckets to a recorded count.
-/

namespace Obscura

open Wire

/-- A Go map or a bucket keyed by strings. -/
abbrev GoMap (β : Type) := OrdMap Bytes β

/-- A bucket keyed by 64-bit integers. -/
abbrev IndexMap (β : Type) := OrdMap Nat β

/-! ## Hexadecimal keys -/

/-- The lower-case digit of a nibble. -/
def hexDigit (nibble : UInt8) : UInt8 :=
  if nibble < 10 then 48 + nibble else 87 + nibble

/-- Lower-case hexadecimal. -/
def hexstr (bytes : Bytes) : Bytes :=
  bytes.flatMap fun byte : UInt8 => [hexDigit (byte >>> 4), hexDigit (byte &&& 15)]

/-- The nibble of a digit. -/
private def nibbleOf (digit : UInt8) : UInt8 :=
  if digit < 58 then digit - 48 else digit - 87

/-- The bytes of a text of digits. -/
private def unhex : Bytes → Bytes
  | high :: low :: rest => (nibbleOf high <<< 4 ||| nibbleOf low) :: unhex rest
  | _ => []

private theorem nibbles (byte : UInt8) :
    nibbleOf (hexDigit (byte >>> 4)) <<< 4 ||| nibbleOf (hexDigit (byte &&& 15)) = byte := by
  have all : ∀ value : Fin 256,
      nibbleOf (hexDigit (UInt8.ofFin value >>> 4)) <<< 4 |||
        nibbleOf (hexDigit (UInt8.ofFin value &&& 15)) = UInt8.ofFin value := by
    decide +kernel
  exact all byte.toFin

private theorem unhex_hexstr (bytes : Bytes) : unhex (hexstr bytes) = bytes := by
  induction bytes with
  | nil => rfl
  | cons byte bytes ih =>
    change (nibbleOf (hexDigit (byte >>> 4)) <<< 4 ||| nibbleOf (hexDigit (byte &&& 15))) ::
      unhex (hexstr bytes) = byte :: bytes
    rw [nibbles, ih]

theorem hexstr_injective : Function.Injective hexstr :=
  Function.LeftInverse.injective unhex_hexstr

@[simp] theorem hexstr_inj {first second : Bytes} :
    hexstr first = hexstr second ↔ first = second :=
  hexstr_injective.eq_iff

/-! ## The disk set -/

/-- A 256-bit multiset-hash value. -/
abbrev SetCommit := BitVec 256

/-- The 256-bit hash of one member. -/
def memberHash (V : Primitives) (key : Bytes) : SetCommit :=
  BitVec.ofNat 256 (ofBigEndian (V.blake2b key))

/-- The three buckets of a set: insertion index to key, membership, and the
running commitment at each count. -/
structure SetBuckets where
  idx : IndexMap Bytes := ∅
  set : GoMap Unit := ∅
  commits : IndexMap SetCommit := ∅
deriving DecidableEq

/-- A disk set: its buckets, and the counter and commitment held in memory. -/
structure DiskSet where
  db : SetBuckets := {}
  count : Nat := 0
  commit : SetCommit := 0
deriving DecidableEq

namespace DiskSet

variable (V : Primitives)

/-- `Has`: whether a key is a member. -/
def has (s : DiskSet) (key : Bytes) : Bool :=
  s.db.set.contains key

/-- The first write of `add`: the index and membership entries of a new key. -/
def putKey (s : DiskSet) (key : Bytes) : DiskSet :=
  if s.has key then s
  else
    { s with
      db := { s.db with
        idx := s.db.idx.insert s.count key
        set := s.db.set.insert key () }
      commit := s.commit + memberHash V key }

/-- The second write of `add`: the running commitment at the new count. -/
def putCommit (s : DiskSet) : DiskSet :=
  { s with
    count := s.count + 1
    db := { s.db with commits := s.db.commits.insert (s.count + 1) s.commit } }

/-- Insert a key; a duplicate moves only the counter. -/
def add (s : DiskSet) (key : Bytes) : DiskSet :=
  (s.putKey V key).putCommit

/-- The running commitment recorded at a count. -/
def readCommit (s : DiskSet) (n : Nat) : SetCommit :=
  if n = 0 then 0 else s.db.commits[n]?.getD 0

/-- Drop every key inserted at index `n` or later. -/
def truncateBuckets (db : SetBuckets) (n : Nat) : SetBuckets where
  idx := db.idx.filter fun index _ => index < n
  set := (db.idx.toList.filter fun entry => n ≤ entry.1).foldl
    (fun set entry => set.erase entry.2) db.set
  commits := db.commits.filter fun index _ => index ≤ n

/-- `Truncate`: the first members stay, with the entries of no others. -/
def truncate (s : DiskSet) (n : Nat) : DiskSet :=
  let cut := { s with db := truncateBuckets s.db n }
  { cut with count := n, commit := cut.readCommit n }

/-- Take over a recorded count; the buckets are reconciled by a later truncation. -/
def setCount (s : DiskSet) (n : Nat) : DiskSet :=
  { s with count := n, commit := s.readCommit n }

/-- `ResetCount`: the count and the mark of the last commit fall to 0. -/
def resetCount (s : DiskSet) : DiskSet :=
  { s with count := 0, commit := 0 }

/-- The first members in insertion order. -/
def members (s : DiskSet) (upTo : Nat) : List Bytes :=
  (s.db.idx.toList.filter fun entry => entry.1 < upTo).map Prod.snd

/-- Rebuild a set from a transferred member list. -/
def importMembers (s : DiskSet) (members : List Bytes) : DiskSet :=
  members.foldl (add V) s

end DiskSet

/-- The commitment a set would have for these members, duplicates counted once. -/
def commitOfMembers (V : Primitives) (members : List Bytes) : SetCommit :=
  (members.foldl (fun (state : SetCommit × List Bytes) member =>
    if member ∈ state.2 then state
    else (state.1 + memberHash V member, member :: state.2)) (0, [])).1

/-! ## The coin store -/

/-- A coin that has ever existed. -/
structure CoinInfo where
  key : Bytes
  commitment : Bytes
  height : Nat
  isCoinbase : Bool
  lockUntil : UInt64
  index : Nat
deriving DecidableEq

/-- The coin buckets with the coin count held in memory. -/
structure CoinStore where
  coinList : IndexMap CoinInfo := ∅
  coins : GoMap CoinInfo := ∅
  coinCount : Nat := 0
deriving DecidableEq

namespace CoinStore

/-- `AddCoin`: the coin under the next index, and under its key. -/
def addCoin (s : CoinStore) (key commitment : Bytes) (height : Nat) (isCoinbase : Bool)
    (lockUntil : UInt64) : CoinStore :=
  let coin : CoinInfo :=
    { key, commitment, height, isCoinbase, lockUntil, index := s.coinCount }
  { coinList := s.coinList.insert coin.index coin
    coins := s.coins.insert (hexstr key) coin
    coinCount := s.coinCount + 1 }

/-- `CoinByIndex`. -/
def coinByIndex (s : CoinStore) (index : Nat) : Option CoinInfo := s.coinList[index]?

/-- `CoinByKey`. -/
def coinByKey (s : CoinStore) (key : Bytes) : Option CoinInfo := s.coins[hexstr key]?

/-- Drop the coins created at index `n` or later. -/
def truncateCoins (s : CoinStore) (n : Nat) : CoinStore where
  coinList := s.coinList.filter fun index _ => index < n
  coins := (s.coinList.toList.filter fun entry => n ≤ entry.1).foldl
    (fun coins entry => coins.erase (hexstr entry.2.key)) s.coins
  coinCount := n

end CoinStore

end Obscura
