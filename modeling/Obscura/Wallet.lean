import Mathlib
import Obscura.Testnet

/-! # The wallet's scan

A wallet follows the chain block by block: it marks its outputs spent, claims the outputs its
keys own, collects the commitment-tree coins paid to it and confirms its own payments. When
the chain is reorganized it undoes the blocks above the fork point and scans the new branch.
-/

namespace Obscura

open Wire Tx

namespace Wallet

/-- The group and the hash functions of package `commit`. -/
structure Curve (Point Scalar : Type) where
  /-- `edwards25519.Point.SetBytes`. -/
  pointSetBytes : Bytes → Option Point
  pointBytes : Point → Bytes
  /-- `edwards25519.Scalar.SetCanonicalBytes`. -/
  scalarSetBytes : Bytes → Option Scalar
  scalarBytes : Scalar → Bytes
  scalarMult : Scalar → Point → Point
  scalarBaseMult : Scalar → Point
  addPoint : Point → Point → Point
  addScalar : Scalar → Scalar → Scalar
  hashToScalar : (domain : Bytes) → (data : List Bytes) → Scalar
  /-- `commit.Commit`, marshalled. -/
  commit : UInt64 → Scalar → Bytes
  sha512 : Bytes → Bytes

/-! ## Keys -/

/-- A stealth key pair; a watch-only one has no spend secret. -/
structure StealthKeys (Point Scalar : Type) where
  a : Scalar
  b : Option Scalar
  nsk : UInt64
  spendKey : Point
  nfPk : Bytes

/-- The one-time key and the transaction key of an output, decoded. -/
structure StealthOutput (Point : Type) where
  P : Point
  R : Point

/-- `stark.NewFelt`. -/
def newFelt (x : UInt64) : UInt64 :=
  if Config.goldilocks ≤ x.toNat then x - UInt64.ofNat Config.goldilocks else x

/-- `stark.FeltFromBytes` on at least eight bytes. -/
def feltFromBytes (bytes : Bytes) : UInt64 :=
  newFelt (UInt64.ofNat (ofBigEndian (bytes.take 8)))

/-- `stark.NodeFromBytes`; a limb the bytes do not reach is zero. -/
def nodeFromBytes (bytes : Bytes) : Node :=
  (List.range 4).flatMap fun i =>
    if (i + 1) * 8 ≤ bytes.length then wU64 (feltFromBytes (bytes.drop (i * 8)))
    else List.replicate 8 0

section Keys

variable {Point Scalar : Type} (V : Primitives) (C : Curve Point Scalar)

/-- `DeriveNfSecret`. -/
def deriveNfSecret (b : Scalar) : UInt64 :=
  feltFromBytes (C.sha512 (ascii "Obscura/nf-nsk" ++ C.scalarBytes b))

namespace StealthKeys

/-- `IsViewOnly`. -/
def isViewOnly (k : StealthKeys Point Scalar) : Bool := k.b.isNone

/-- A watch-only pair has no subaddresses. -/
def subaddress (k : StealthKeys Point Scalar) (index : Nat) : StealthKeys Point Scalar :=
  match k.b with
  | none => k
  | some spend =>
    if index = 0 then
      k
    else
      let a := C.hashToScalar (ascii "Obscura/sub-view") [C.scalarBytes k.a, bigEndian 4 index]
      let b := C.hashToScalar (ascii "Obscura/sub-spend") [C.scalarBytes spend, bigEndian 4 index]
      let nsk := deriveNfSecret C b
      { a, b := some b, nsk, spendKey := C.scalarBaseMult b, nfPk := nfAddress V nsk }

/-- `SharedSecret`: the view key and the output's point. -/
def sharedSecret (k : StealthKeys Point Scalar) (out : StealthOutput Point) : Bytes :=
  C.pointBytes (C.scalarMult k.a out.R)

/-- The one-time key that a shared secret gives for these keys. -/
def expectedKey (k : StealthKeys Point Scalar) (shared : Bytes) : Point :=
  C.addPoint (C.scalarBaseMult (C.hashToScalar (ascii "Obscura/stealth") [shared])) k.spendKey

/-- `ViewTag`: one byte that lets most outputs be passed over. -/
def viewTag (shared : Bytes) : UInt8 :=
  (C.sha512 (ascii "Obscura/view-tag" ++ shared)).headD 0

variable [DecidableEq Point]

/-- `ScanMatch`: the tag first, then the key. -/
def scanMatch (k : StealthKeys Point Scalar) (out : StealthOutput Point) (tag : UInt8) : Bool :=
  let shared := k.sharedSecret C out
  if viewTag C shared ≠ tag then false else decide (k.expectedKey C shared = out.P)

/-- `Owns`: the key that the shared secret leads to is the output's. -/
def owns (k : StealthKeys Point Scalar) (out : StealthOutput Point) : Bool :=
  decide (k.expectedKey C (k.sharedSecret C out) = out.P)

/-- `OneTimeSecret`; a watch-only wallet has none. -/
def oneTimeSecret (k : StealthKeys Point Scalar) (out : StealthOutput Point) :
    Except String Scalar := do
  match k.b with
  | none => throw "stealth: view-only wallet cannot derive spend secrets"
  | some b =>
    if !k.owns C out then
      throw "stealth: output not owned"
    else
      return C.addScalar
        (C.hashToScalar (ascii "Obscura/stealth") [k.sharedSecret C out]) b

end StealthKeys

/-- `commit.EncryptBytes`: exclusive or with a keystream of the shared secret. -/
def encryptBytes (shared label plaintext : Bytes) : Bytes :=
  let keystream := (List.range (plaintext.length / 64 + 1)).flatMap fun ctr =>
    C.sha512 (ascii "Obscura/ks/" ++ label ++ shared ++ [UInt8.ofNat ctr])
  List.zipWith (· ^^^ ·) plaintext keystream

/-- Little-endian bytes as a number. -/
def littleEndian64 (bytes : Bytes) : UInt64 := UInt64.ofNat (ofBigEndian bytes.reverse)

/-- `DecryptAmount`; 0 for a field of another length. -/
def decryptAmount (shared enc : Bytes) : UInt64 :=
  if enc.length ≠ 8 then 0 else littleEndian64 (encryptBytes C shared (ascii "amount") enc)

/-- `DecryptScalar`. -/
def decryptScalar (shared enc : Bytes) : Option Scalar :=
  C.scalarSetBytes (encryptBytes C shared (ascii "mask") enc)

/-- The randomness and the blinding of a coin that a shared secret pays. -/
def zkSecretsFromShared (shared : Bytes) : UInt64 × UInt64 :=
  (feltFromBytes (V.blake2b (ascii "OBX/zk/rho" ++ shared)),
    feltFromBytes (V.blake2b (ascii "OBX/zk/blind" ++ shared)))

/-- The hidden amount of a confidential spend's new coin. -/
def unmaskAmount (shared enc : Bytes) : Option UInt64 :=
  if enc.length ≠ 8 then
    none
  else
    some (littleEndian64
      (List.zipWith (· ^^^ ·) enc ((V.blake2b (ascii "OBX/zk/czk-amt" ++ shared)).take 8)))

end Keys

/-! ## What a wallet holds -/

/-- An output of the wallet, with what is needed to spend it. -/
structure OwnedOutput (Scalar : Type) where
  out : Output
  amount : UInt64
  mask : Scalar
  oneTime : Option Scalar
  height : Nat
  isCoinbase : Bool
  spent : Bool := false
  spentHeight : Nat := 0
  sourceTx : Hash
  reserved : Bool := false

/-- A payment of this wallet; its height is zero until a block confirms it. -/
structure SentTx where
  txID : Hash
  dest : Bytes
  amount : UInt64
  fee : UInt64
  raw : Bytes
  height : Nat := 0
  replaced : Bool := false
  destR : Bytes := []

/-- The secrets of a commitment-tree coin. -/
structure ZKCoin where
  amount : UInt64
  rho : UInt64
  blind : UInt64
  nsk : UInt64
  leaf : Bytes

end Wallet

open Wallet

/-- The state of a wallet. -/
structure Wallet (Point Scalar : Type) where
  keys : StealthKeys Point Scalar
  outputs : List (OwnedOutput Scalar) := []
  sent : List SentTx := []
  subCount : Nat := 0
  lastScanned : Nat := 0
  zkCoins : List ZKCoin := []

namespace Wallet

section Scan

variable {Point Scalar : Type} [DecidableEq Point] (V : Primitives) (C : Curve Point Scalar)

/-- A coin whose leaf is held already is not added again. -/
def addZKCoin (coins : List ZKCoin) (c : ZKCoin) : List ZKCoin :=
  if c.leaf ∈ coins.map ZKCoin.leaf then coins else coins ++ [c]

/-- The main account and every generated subaddress. -/
def subKeys (w : Wallet Point Scalar) : List (StealthKeys Point Scalar) :=
  w.keys :: (List.range w.subCount).map fun i => w.keys.subaddress V C (i + 1)

/-- `Balance`: the amounts that are not spent. -/
def balance (w : Wallet Point Scalar) : UInt64 :=
  ((w.outputs.filter fun o => !o.spent).map OwnedOutput.amount).sum

/-- The first account that owns an output, with the output's keys decoded. -/
def owner (keys : List (StealthKeys Point Scalar)) (key txPubKey : Bytes) (tag : UInt8) :
    Option (StealthKeys Point Scalar × StealthOutput Point) := do
  let P ← C.pointSetBytes key
  let R ← C.pointSetBytes txPubKey
  let k ← keys.find? fun k => k.scanMatch C ⟨P, R⟩ tag
  return (k, ⟨P, R⟩)

/-- The output as the wallet records it, when one of the keys owns it and the decrypted amount
and mask open its commitment. -/
def claimed (keys : List (StealthKeys Point Scalar)) (height : Nat) (isCoinbase : Bool)
    (sourceTx : Hash) (held : List (OwnedOutput Scalar)) (o : Output) :
    Option (OwnedOutput Scalar) := do
  if o.oneTimeKey.length ≠ 32 ∨ o.txPubKey.length ≠ 32 ∨ o.commitment.length ≠ 32 then
    none
  else
    let (k, so) ← owner C keys o.oneTimeKey o.txPubKey o.viewTag
    if o.oneTimeKey ∈ held.map fun ex => ex.out.oneTimeKey then
      none
    else
      let shared := k.sharedSecret C so
      let amount := decryptAmount C shared o.encAmount
      let mask ← decryptScalar C shared o.encMask
      if C.commit amount mask ≠ o.commitment then
        none
      else if k.isViewOnly then
        return { out := o, amount, mask, oneTime := none, height, isCoinbase, sourceTx }
      else
        match k.oneTimeSecret C so with
        | .error _ => none
        | .ok x =>
          return { out := o, amount, mask, oneTime := some x, height, isCoinbase, sourceTx }

/-- The first of the accounts that owns an output claims it. -/
def tryClaim (keys : List (StealthKeys Point Scalar)) (height : Nat) (isCoinbase : Bool)
    (sourceTx : Hash) (held : List (OwnedOutput Scalar)) (o : Output) :
    List (OwnedOutput Scalar) :=
  held ++ (claimed C keys height isCoinbase sourceTx held o).toList

/-- The coin of a mint, when it is paid to one of the keys and the leaf is the note's. -/
def mintedCoin (keys : List (StealthKeys Point Scalar)) (o : ZKOutput) : Option ZKCoin := do
  if o.key.length ≠ 32 ∨ o.txPubKey.length ≠ 32 ∨ o.leaf.length ≠ 32 then
    none
  else
    let (k, so) ← owner C keys o.key o.txPubKey o.viewTag
    let (rho, blind) := zkSecretsFromShared V (k.sharedSecret C so)
    if nfNoteFromPk V (nodeFromBytes k.nfPk) (newFelt o.amount) rho blind ≠
        nodeFromBytes o.leaf then
      none
    else
      return { amount := o.amount, rho, blind, nsk := k.nsk, leaf := o.leaf }

/-- The new coin of a confidential spend, likewise; its amount is encrypted. -/
def sentCoin (keys : List (StealthKeys Point Scalar)) (s : CZKSpend) : Option ZKCoin := do
  if s.key.length ≠ 32 ∨ s.txPubKey.length ≠ 32 ∨ s.leafOut.length ≠ 32 then
    none
  else
    let (k, so) ← owner C keys s.key s.txPubKey s.viewTag
    let shared := k.sharedSecret C so
    let (rho, blind) := zkSecretsFromShared V shared
    let amount ← unmaskAmount V shared s.encAmount
    if nfNoteFromPk V (nodeFromBytes k.nfPk) (newFelt amount) rho blind ≠
        nodeFromBytes s.leafOut then
      none
    else
      return { amount, rho, blind, nsk := k.nsk, leaf := s.leafOut }

/-- The commitment-tree coins that a block pays to the keys. -/
def scanZKCoins (keys : List (StealthKeys Point Scalar)) (b : Block) : List ZKCoin :=
  b.txs.flatMap fun t =>
    t.zkOutputs.filterMap (mintedCoin V C keys) ++ t.czkSpends.filterMap (sentCoin V C keys)

/-- An output that the block spends is marked at the block's height. -/
def markSpent (spentRefs : List Bytes) (height : Nat) (o : OwnedOutput Scalar) :
    OwnedOutput Scalar :=
  if o.out.oneTimeKey ∈ spentRefs ∧ !o.spent then { o with spent := true, spentHeight := height }
  else o

/-- Confirm the first payment with a transaction's id. -/
def confirm (height : Nat) (txid : Hash) : List SentTx → List SentTx
  | [] => []
  | s :: sent =>
    if s.txID = txid then (if s.height = 0 then { s with height } else s) :: sent
    else s :: confirm height txid sent

/-- `ScanBlock`: the block's spends are marked, then its outputs are claimed. -/
def scanBlock (w : Wallet Point Scalar) (b : Block) : Wallet Point Scalar :=
  let height := b.header.height
  let spentRefs := b.txs.flatMap fun t => t.inputs.map Input.outputRef
  let marked := w.outputs.map (markSpent spentRefs height)
  let keys := w.subKeys V C
  { w with
    outputs := b.txs.foldl
      (fun held t => t.outputs.foldl (tryClaim C keys height t.isCoinbase (t.hash V)) held) marked
    zkCoins := (scanZKCoins V C keys b).foldl addZKCoin w.zkCoins
    sent := b.txs.foldl (fun sent t => confirm height (t.hash V) sent) w.sent
    lastScanned := if w.lastScanned < height then height else w.lastScanned }

/-- Scan blocks one after another. -/
def scan (w : Wallet Point Scalar) (blocks : List Block) : Wallet Point Scalar :=
  blocks.foldl (scanBlock V C) w

/-- An output of an undone block is dropped; a spend in one is taken back. -/
def undoOutput (fromHeight : Nat) (o : OwnedOutput Scalar) : Option (OwnedOutput Scalar) :=
  if fromHeight ≤ o.height then
    none
  else if o.spent ∧ fromHeight ≤ o.spentHeight then
    some { o with spent := false, spentHeight := 0 }
  else
    some o

/-- A payment confirmed too high is pending again. -/
def undoSent (fromHeight : Nat) (s : SentTx) : SentTx :=
  if fromHeight ≤ s.height then { s with height := 0 } else s

/-- Roll back the scan of every block from a height on; the genesis block stays. -/
def scanBlockUndo (w : Wallet Point Scalar) (fromHeight : Nat) : Wallet Point Scalar :=
  let fromHeight := if fromHeight = 0 then 1 else fromHeight
  { w with
    outputs := w.outputs.filterMap (undoOutput fromHeight)
    sent := w.sent.map (undoSent fromHeight)
    lastScanned := if fromHeight ≤ w.lastScanned then fromHeight - 1 else w.lastScanned }

end Scan

section Undo

variable {Point Scalar : Type} [DecidableEq Point] {V : Primitives} {C : Curve Point Scalar}
variable {w base : Wallet Point Scalar}

/-! ## What a scan records -/

/-- Every height a wallet has recorded is at most that of the last block it scanned. -/
structure ScannedTo (n : Nat) (w : Wallet Point Scalar) : Prop where
  last : w.lastScanned = n
  received : ∀ o ∈ w.outputs, o.height ≤ n
  spends : ∀ o ∈ w.outputs, o.spentHeight ≤ n
  unspent : ∀ o ∈ w.outputs, o.spent = false → o.spentHeight = 0
  confirmed : ∀ s ∈ w.sent, s.height ≤ n

/-- Blocks at consecutive heights. -/
def AtHeights : Nat → List Block → Prop
  | _, [] => True
  | height, b :: blocks => b.header.height = height ∧ AtHeights (height + 1) blocks

/-- The heights of two parts. -/
theorem AtHeights.split {height : Nat} {first second : List Block}
    (heights : AtHeights height (first ++ second)) :
    AtHeights height first ∧ AtHeights (height + first.length) second := by
  induction first generalizing height with
  | nil => exact ⟨trivial, heights⟩
  | cons b first ih =>
    obtain ⟨here, rest⟩ := heights
    obtain ⟨before, after⟩ := ih rest
    have same : height + 1 + first.length = height + (b :: first).length := by
      rw [List.length_cons, Nat.add_assoc, Nat.add_comm 1]
    exact ⟨⟨here, before⟩, same ▸ after⟩

/-- An output as a scan first records it. -/
def New (height : Nat) (o : OwnedOutput Scalar) : Prop :=
  o.height = height ∧ o.spent = false ∧ o.spentHeight = 0

/-- What is claimed is new and not spent. -/
theorem claimed_new {keys : List (StealthKeys Point Scalar)} {height : Nat} {isCoinbase : Bool}
    {sourceTx : Hash} {held : List (OwnedOutput Scalar)} {o : Output} {own : OwnedOutput Scalar}
    (found : claimed C keys height isCoinbase sourceTx held o = some own) : New height own := by
  unfold claimed at found
  split_ifs at found with ill known
  · obtain ⟨_, -, found⟩ := Option.bind_eq_some_iff.mp found
    exact nomatch found
  · obtain ⟨⟨k, so⟩, -, found⟩ := Option.bind_eq_some_iff.mp found
    obtain ⟨mask, -, found⟩ := Option.bind_eq_some_iff.mp found
    split_ifs at found
    · cases found
      exact ⟨rfl, rfl, rfl⟩
    · split at found
      · exact nomatch found
      · cases found
        exact ⟨rfl, rfl, rfl⟩

theorem tryClaim_append (keys : List (StealthKeys Point Scalar)) (height : Nat) (isCoinbase : Bool)
    (sourceTx : Hash) (held : List (OwnedOutput Scalar)) (o : Output) :
    ∃ added, tryClaim C keys height isCoinbase sourceTx held o = held ++ added ∧
      ∀ own ∈ added, New height own :=
  ⟨_, rfl, fun _ own => claimed_new (Option.mem_toList.mp own)⟩

/-- A loop that only appends. -/
theorem foldl_append {α β : Type} {body : List β → α → List β} {new : β → Prop}
    (step : ∀ held item, ∃ added, body held item = held ++ added ∧ ∀ own ∈ added, new own)
    (held : List β) (items : List α) :
    ∃ added, items.foldl body held = held ++ added ∧ ∀ own ∈ added, new own := by
  induction items generalizing held with
  | nil => exact ⟨[], (List.append_nil held).symm, by simp⟩
  | cons item items ih =>
    obtain ⟨first, one, firstNew⟩ := step held item
    obtain ⟨rest, more, restNew⟩ := ih (body held item)
    refine ⟨first ++ rest, ?_, ?_⟩
    · rw [List.foldl_cons, more, one, List.append_assoc]
    · intro own among
      rcases List.mem_append.mp among with early | late
      · exact firstNew own early
      · exact restNew own late

theorem scanBlock_outputs (w : Wallet Point Scalar) (b : Block) :
    ∃ spentRefs added, (w.scanBlock V C b).outputs =
        w.outputs.map (markSpent spentRefs b.header.height) ++ added ∧
      ∀ own ∈ added, New b.header.height own := by
  obtain ⟨added, same, new⟩ := foldl_append
    (fun held (t : Transaction) => foldl_append
      (tryClaim_append (C := C) (w.subKeys V C) b.header.height t.isCoinbase (t.hash V)) held
      t.outputs)
    (w.outputs.map (markSpent (b.txs.flatMap fun t => t.inputs.map Input.outputRef)
      b.header.height)) b.txs
  exact ⟨_, added, same, new⟩

theorem scanBlock_keys (w : Wallet Point Scalar) (b : Block) :
    (w.scanBlock V C b).subKeys V C = w.subKeys V C := rfl

theorem confirm_forall {height : Nat} {txid : Hash} {holds : SentTx → Prop} {sent : List SentTx}
    (before : ∀ s ∈ sent, holds s) (after : ∀ s, holds s → holds { s with height }) :
    ∀ s ∈ confirm height txid sent, holds s := by
  induction sent with
  | nil => exact before
  | cons s sent ih =>
    obtain ⟨here, rest⟩ := List.forall_mem_cons.mp before
    rw [confirm]
    split_ifs
    · exact List.forall_mem_cons.mpr ⟨after s here, rest⟩
    · exact List.forall_mem_cons.mpr ⟨here, rest⟩
    · exact List.forall_mem_cons.mpr ⟨here, ih rest⟩

theorem foldl_keeps {α β : Type} {body : β → α → β} (holds : β → Prop)
    (step : ∀ state item, holds state → holds (body state item)) {state : β} (items : List α)
    (start : holds state) : holds (items.foldl body state) := by
  induction items generalizing state with
  | nil => exact start
  | cons item items ih => exact ih (step state item start)

theorem markSpent_height (spentRefs : List Bytes) (height : Nat) (o : OwnedOutput Scalar) :
    (markSpent spentRefs height o).height = o.height := by
  unfold markSpent
  split_ifs <;> rfl

/-- One block more has been scanned. -/
theorem ScannedTo.scanBlock {n : Nat} (scanned : w.ScannedTo n) {b : Block}
    (next : b.header.height = n + 1) : (w.scanBlock V C b).ScannedTo (n + 1) := by
  obtain ⟨spentRefs, added, outputs, new⟩ := scanBlock_outputs (V := V) (C := C) w b
  rw [next] at outputs new
  have each : ∀ holds : OwnedOutput Scalar → Prop,
      (∀ o ∈ w.outputs, holds (markSpent spentRefs (n + 1) o)) → (∀ o, New (n + 1) o → holds o) →
      ∀ o ∈ (w.scanBlock V C b).outputs, holds o := by
    intro holds old fresh o among
    rw [outputs] at among
    rcases List.mem_append.mp among with early | late
    · obtain ⟨o, held, rfl⟩ := List.mem_map.mp early
      exact old o held
    · exact fresh o (new o late)
  constructor
  case last =>
    change (if w.lastScanned < b.header.height then b.header.height else w.lastScanned) = n + 1
    rw [scanned.last, next, if_pos (Nat.lt_succ_self n)]
  case received =>
    apply each
    · intro o held
      rw [markSpent_height]
      exact (scanned.received o held).trans (Nat.le_succ n)
    · exact fun o fresh => fresh.1.le
  case spends =>
    apply each
    · intro o held
      unfold markSpent
      split_ifs
      · exact le_rfl
      · exact (scanned.spends o held).trans (Nat.le_succ n)
    · exact fun o fresh => fresh.2.2.trans_le (Nat.zero_le _)
  case unspent =>
    apply each
    · intro o held
      unfold markSpent
      split_ifs
      · exact fun unspent => nomatch unspent
      · exact scanned.unspent o held
    · exact fun o fresh _ => fresh.2.2
  case confirmed =>
    change ∀ s ∈ b.txs.foldl (fun sent t => confirm b.header.height (t.hash V) sent) w.sent, _
    rw [next]
    apply foldl_keeps fun sent : List SentTx => ∀ s ∈ sent, s.height ≤ n + 1
    · exact fun sent t held => confirm_forall held fun _ _ => le_rfl
    · exact fun s among => (scanned.confirmed s among).trans (Nat.le_succ n)

theorem ScannedTo.scan {n : Nat} (scanned : w.ScannedTo n) {blocks : List Block}
    (heights : AtHeights (n + 1) blocks) :
    (w.scan V C blocks).ScannedTo (n + blocks.length) := by
  induction blocks generalizing w n with
  | nil => exact scanned
  | cons b blocks ih =>
    have rest := ih (scanned.scanBlock (V := V) (C := C) heights.1) heights.2
    rw [List.length_cons, Nat.add_comm blocks.length, ← Nat.add_assoc]
    exact rest

/-! ## What an undo takes back -/

/-- A wallet that scanned blocks from a height on over `base`: undoing that height gives back
the outputs and the payments of `base`. -/
structure Above (fromHeight : Nat) (base w : Wallet Point Scalar) : Prop where
  keys : w.keys = base.keys
  subCount : w.subCount = base.subCount
  outputs : w.outputs.filterMap (undoOutput fromHeight) = base.outputs
  unspent : ∀ o ∈ w.outputs, o.spent = false → o.spentHeight = 0
  sent : w.sent.map (undoSent fromHeight) = base.sent
  last : fromHeight ≤ w.lastScanned + 1

theorem undoOutput_below {n : Nat} {o : OwnedOutput Scalar} (received : o.height ≤ n)
    (spends : o.spentHeight ≤ n) : undoOutput (n + 1) o = some o := by
  rw [undoOutput, if_neg (Nat.not_le.mpr (Nat.lt_succ_of_le received)),
    if_neg fun undone => Nat.not_le.mpr (Nat.lt_succ_of_le spends) undone.2]

theorem undoSent_below {n : Nat} {s : SentTx} (confirmed : s.height ≤ n) :
    undoSent (n + 1) s = s :=
  if_neg (Nat.not_le.mpr (Nat.lt_succ_of_le confirmed))

/-- Undoing a spend that was marked. -/
theorem undoOutput_markSpent {fromHeight height : Nat} (from' : fromHeight ≤ height)
    (spentRefs : List Bytes) {o : OwnedOutput Scalar}
    (unspent : o.spent = false → o.spentHeight = 0) :
    undoOutput fromHeight (markSpent spentRefs height o) = undoOutput fromHeight o := by
  unfold markSpent
  split_ifs with spends
  · have free : o.spent = false := by simpa using spends.2
    unfold undoOutput
    dsimp only
    split_ifs with dropped none' never
    · rfl
    · exact absurd never.1 (by simp [free])
    · have zero := unspent free
      cases o
      dsimp only at free zero ⊢
      rw [free, zero]
    · exact absurd ⟨rfl, from'⟩ none'
    · exact absurd ⟨rfl, from'⟩ none'
  · rfl

/-- Undoing a payment that was confirmed. -/
theorem undoSent_confirm {fromHeight height : Nat} (from' : fromHeight ≤ height)
    (positive : 0 < fromHeight) (txid : Hash) (sent : List SentTx) :
    (confirm height txid sent).map (undoSent fromHeight) = sent.map (undoSent fromHeight) := by
  induction sent with
  | nil => rfl
  | cons s sent ih =>
    rw [confirm]
    split_ifs with same pending
    · have undone : undoSent fromHeight { s with height } = undoSent fromHeight s := by
        unfold undoSent
        rw [if_pos from', if_neg (by omega)]
        cases s
        dsimp only at pending ⊢
        rw [pending]
      rw [List.map_cons, List.map_cons, undone]
    · rfl
    · rw [List.map_cons, List.map_cons, ih]

namespace Above

omit [DecidableEq Point] in
/-- A wallet is above itself. -/
theorem start {n : Nat} (scanned : w.ScannedTo n) : Above (n + 1) w w where
  keys := rfl
  subCount := rfl
  outputs := by
    rw [List.filterMap_congr fun o held =>
      undoOutput_below (scanned.received o held) (scanned.spends o held)]
    exact List.filterMap_some
  unspent := scanned.unspent
  sent := by
    rw [List.map_congr_left fun s held => undoSent_below (scanned.confirmed s held)]
    exact List.map_id _
  last := by rw [scanned.last]

/-- A block above the height. -/
theorem scanBlock {fromHeight : Nat} (above : Above fromHeight base w) (positive : 0 < fromHeight)
    {b : Block} (from' : fromHeight ≤ b.header.height) :
    Above fromHeight base (w.scanBlock V C b) := by
  obtain ⟨spentRefs, added, outputs, new⟩ := scanBlock_outputs (V := V) (C := C) w b
  constructor
  case keys => exact above.keys
  case subCount => exact above.subCount
  case outputs =>
    have dropped : added.filterMap (undoOutput fromHeight) = [] := by
      rw [List.filterMap_eq_nil_iff]
      exact fun o among => if_pos ((new o among).1 ▸ from')
    rw [outputs, List.filterMap_append, dropped, List.append_nil, List.filterMap_map,
      ← above.outputs]
    exact List.filterMap_congr fun o held =>
      undoOutput_markSpent from' spentRefs (above.unspent o held)
  case unspent =>
    intro o among
    rw [outputs] at among
    rcases List.mem_append.mp among with early | late
    · obtain ⟨o, held, rfl⟩ := List.mem_map.mp early
      unfold markSpent
      split_ifs
      · exact fun unspent => nomatch unspent
      · exact above.unspent o held
    · exact fun _ => (new o late).2.2
  case sent =>
    change (b.txs.foldl (fun sent t => confirm b.header.height (t.hash V) sent) w.sent).map _ = _
    apply foldl_keeps fun sent : List SentTx => sent.map (undoSent fromHeight) = base.sent
    · intro sent t same
      rw [undoSent_confirm from' positive, same]
    · exact above.sent
  case last =>
    change _ ≤ (if w.lastScanned < b.header.height then b.header.height else w.lastScanned) + 1
    have last := above.last
    split_ifs <;> omega

/-- Blocks above the height. -/
theorem scan {fromHeight height : Nat} (above : Above fromHeight base w)
    (positive : 0 < fromHeight) (from' : fromHeight ≤ height) {blocks : List Block}
    (heights : AtHeights height blocks) : Above fromHeight base (w.scan V C blocks) := by
  induction blocks generalizing w height with
  | nil => exact above
  | cons b blocks ih =>
    have next := above.scanBlock (V := V) (C := C) positive (from'.trans_eq heights.1.symm)
    exact ih next (from'.trans (Nat.le_succ height)) heights.2

omit [DecidableEq Point] in
theorem undo {n : Nat} (above : Above (n + 1) base w) (scanned : base.ScannedTo n) :
    w.scanBlockUndo (n + 1) = { base with zkCoins := w.zkCoins } := by
  have last : (if n + 1 ≤ w.lastScanned then n + 1 - 1 else w.lastScanned) = base.lastScanned := by
    have reached := above.last
    rw [scanned.last]
    split_ifs <;> omega
  unfold scanBlockUndo
  dsimp only
  rw [if_neg (Nat.succ_ne_zero n), above.outputs, above.sent, last, above.keys, above.subCount]

end Above

/-! ## Commitment-tree coins -/

/-- The leaves of the coins that are kept. -/
theorem mem_foldl_addZKCoin {coins found : List ZKCoin} {leaf : Bytes} :
    leaf ∈ (found.foldl addZKCoin coins).map ZKCoin.leaf ↔
      leaf ∈ coins.map ZKCoin.leaf ∨ leaf ∈ found.map ZKCoin.leaf := by
  induction found generalizing coins with
  | nil => simp
  | cons c found ih =>
    rw [List.foldl_cons, ih, addZKCoin]
    split_ifs with held
    · constructor
      · rintro (old | new)
        · exact Or.inl old
        · exact Or.inr (List.mem_cons_of_mem _ new)
      · rintro (old | new)
        · exact Or.inl old
        · rcases List.mem_cons.mp new with here | later
          · exact Or.inl (here ▸ held)
          · exact Or.inr later
    · simp [or_assoc]

theorem foldl_addZKCoin_eq_iff {coins found : List ZKCoin} :
    found.foldl addZKCoin coins = coins ↔ ∀ c ∈ found, c.leaf ∈ coins.map ZKCoin.leaf := by
  constructor
  · intro same c among
    rw [← same]
    exact mem_foldl_addZKCoin.mpr (Or.inr (List.mem_map_of_mem among))
  · intro held
    induction found with
    | nil => rfl
    | cons c found ih =>
      obtain ⟨here, rest⟩ := List.forall_mem_cons.mp held
      rw [List.foldl_cons, addZKCoin, if_pos here]
      exact ih rest

theorem scan_keys (w : Wallet Point Scalar) (blocks : List Block) :
    (w.scan V C blocks).subKeys V C = w.subKeys V C := by
  induction blocks generalizing w with
  | nil => rfl
  | cons b blocks ih => exact (ih (w.scanBlock V C b)).trans (scanBlock_keys w b)

theorem scan_zkCoins (w : Wallet Point Scalar) (blocks : List Block) :
    (w.scan V C blocks).zkCoins =
      (blocks.flatMap (scanZKCoins V C (w.subKeys V C))).foldl addZKCoin w.zkCoins := by
  induction blocks generalizing w with
  | nil => rfl
  | cons b blocks ih =>
    rw [List.flatMap_cons, List.foldl_append]
    exact ih (w.scanBlock V C b)

/-! ## Undoing a reorganization -/

variable (V C) in
/-- The blocks from a height on pay the wallet no coin it did not hold before them. -/
def NoNewCoin (w : Wallet Point Scalar) (blocks : List Block) (h : Nat) : Prop :=
  ∀ b ∈ blocks.drop (h - 1), ∀ c ∈ scanZKCoins V C (w.subKeys V C) b,
    c.leaf ∈ (w.zkCoins ++
      (blocks.take (h - 1)).flatMap (scanZKCoins V C (w.subKeys V C))).map ZKCoin.leaf

theorem scan_append (w : Wallet Point Scalar) (first second : List Block) :
    w.scan V C (first ++ second) = (w.scan V C first).scan V C second :=
  List.foldl_append

/-- No coin is new exactly when the scan adds none. -/
theorem noNewCoin_iff {blocks : List Block} {h : Nat} :
    NoNewCoin V C w blocks h ↔
      (w.scan V C blocks).zkCoins = (w.scan V C (blocks.take (h - 1))).zkCoins := by
  have split : (w.scan V C blocks).zkCoins =
      ((blocks.drop (h - 1)).flatMap (scanZKCoins V C (w.subKeys V C))).foldl addZKCoin
        (w.scan V C (blocks.take (h - 1))).zkCoins := by
    conv_lhs => rw [← List.take_append_drop (h - 1) blocks, scan_append]
    rw [scan_zkCoins, scan_keys]
  rw [split, foldl_addZKCoin_eq_iff]
  unfold NoNewCoin
  simp only [List.mem_flatMap, forall_exists_index, and_imp]
  constructor
  · intro held c b among found
    rw [scan_zkCoins, mem_foldl_addZKCoin, ← List.mem_append, ← List.map_append]
    exact held b among c found
  · intro held b among c found
    have leaf := held c b among found
    rwa [scan_zkCoins, mem_foldl_addZKCoin, ← List.mem_append, ← List.map_append] at leaf

theorem scanBlockUndo_eq (unscanned : w.ScannedTo 0) {blocks : List Block}
    (heights : AtHeights 1 blocks) {h : Nat} (within : h ≤ blocks.length) :
    (w.scan V C blocks).scanBlockUndo h =
      { w.scan V C (blocks.take (h - 1)) with zkCoins := (w.scan V C blocks).zkCoins } := by
  have clamped : (w.scan V C blocks).scanBlockUndo h =
      (w.scan V C blocks).scanBlockUndo (h - 1 + 1) := by
    cases h with
    | zero => rfl
    | succ h => rfl
  have apart := List.take_append_drop (h - 1) blocks
  rw [← apart] at heights
  obtain ⟨before, after⟩ := heights.split
  have length : (blocks.take (h - 1)).length = h - 1 := List.length_take_of_le (by omega)
  have below := unscanned.scan (V := V) (C := C) before
  rw [length, Nat.zero_add] at below
  rw [length, Nat.add_comm] at after
  have above := (Above.start below).scan (V := V) (C := C) (Nat.succ_pos _) le_rfl after
  rw [← scan_append, apart] at above
  rw [clamped, above.undo below]

/-- **Wallet undo.** For a wallet that has scanned no block above genesis, scanning blocks at
heights 1 to n and undoing from a height on gives the wallet that scanned only the blocks below
that height, and a scan of a new branch goes on as if the undone blocks had never been seen,
exactly when the undone blocks paid it no new commitment-tree coin. -/
theorem undo_restores_iff (unscanned : w.ScannedTo 0) {blocks : List Block}
    (heights : AtHeights 1 blocks) {h : Nat} (within : h ≤ blocks.length) :
    ((w.scan V C blocks).scanBlockUndo h = w.scan V C (blocks.take (h - 1)) ↔
        NoNewCoin V C w blocks h) ∧
      ((∀ branch, ((w.scan V C blocks).scanBlockUndo h).scan V C branch =
          w.scan V C (blocks.take (h - 1) ++ branch)) ↔ NoNewCoin V C w blocks h) := by
  have undone := scanBlockUndo_eq (V := V) (C := C) unscanned heights within
  have restored : (w.scan V C blocks).scanBlockUndo h = w.scan V C (blocks.take (h - 1)) ↔
      NoNewCoin V C w blocks h := by
    rw [undone, noNewCoin_iff]
    constructor
    · intro same
      have coins := congrArg Wallet.zkCoins same
      exact coins
    · intro same
      rw [same]
  refine ⟨restored, ?_⟩
  rw [← restored]
  constructor
  · intro branches
    have none := branches []
    rwa [List.append_nil] at none
  · intro same branch
    rw [same, scan_append]

end Undo

/-! ## A toy wallet -/

/-- A network on which every note has the same leaf. -/
def noteNet : Primitives := { Testnet.primitives id with wideHash2 := fun _ _ => zeroHash }

/-- A curve on which an output's one-time key is its owner's spend key. -/
def plainCurve : Curve Bytes Unit where
  pointSetBytes := some
  pointBytes := id
  scalarSetBytes _ := some ()
  scalarBytes _ := []
  scalarMult _ point := point
  scalarBaseMult _ := []
  addPoint first second := first ++ second
  addScalar _ _ := ()
  hashToScalar _ _ := ()
  commit amount _ := wU64 amount ++ List.replicate 24 0
  sha512 _ := List.replicate 64 0

/-- A wallet with nothing in it. -/
def newWallet : Wallet Bytes Unit where
  keys := { a := (), b := some (), nsk := 0, spendKey := List.replicate 32 1, nfPk := zeroHash }

theorem newWallet_unscanned : newWallet.ScannedTo 0 where
  last := rfl
  received := by simp [newWallet]
  spends := by simp [newWallet]
  unspent := by simp [newWallet]
  confirmed := by simp [newWallet]

/-- A first block that pays nobody. -/
def emptyBlock : Block where
  header :=
    { height := 1, prevHash := zeroHash, timestamp := 0, difficulty := 1, accValue := [],
      stateRoot := zeroHash }
  txs := []

/-- The same block with a mint to the wallet. -/
def mintBlock : Block :=
  { emptyBlock with
    txs :=
      [{ zkOutputs := [{
          leaf := zeroHash, amount := 5, key := List.replicate 32 1,
          txPubKey := List.replicate 32 2 }] }] }

/-- A payment of five to the wallet. -/
def paidOutput : Output where
  oneTimeKey := List.replicate 32 1
  txPubKey := List.replicate 32 2
  commitment := wU64 5 ++ List.replicate 24 0
  encAmount := [5, 0, 0, 0, 0, 0, 0, 0]
  encMask := 1 :: List.replicate 31 0

/-- The first block pays the wallet. -/
def payBlock : Block :=
  { emptyBlock with txs := [{ isCoinbase := true, outputs := [paidOutput] }] }

/-- The second block spends the payment. -/
def spendBlock : Block where
  header := { emptyBlock.header with height := 2 }
  txs := [{ inputs := [{
    outputRef := paidOutput.oneTimeKey, pseudoCommitment := [], keyImage := [] }] }]

/-- Undoing the block that spends gives back what the first one paid. -/
theorem undo_restores_spend :
    (newWallet.scan noteNet plainCurve [payBlock, spendBlock]).balance = 0 ∧
      (newWallet.scan noteNet plainCurve [payBlock]).balance = 5 ∧
      (newWallet.scan noteNet plainCurve [payBlock, spendBlock]).scanBlockUndo 2 =
        newWallet.scan noteNet plainCurve [payBlock] := by
  refine ⟨by decide, by decide, ?_⟩
  refine (undo_restores_iff newWallet_unscanned
    (show AtHeights 1 [payBlock, spendBlock] from ⟨rfl, rfl, trivial⟩)
    (show 2 ≤ [payBlock, spendBlock].length from le_rfl)).1.mpr ?_
  intro b among c found
  obtain rfl : b = spendBlock := List.mem_singleton.mp among
  exact absurd found List.not_mem_nil

/-- A wallet that scanned the mint keeps its coin when the block is undone. -/
theorem undo_keeps_coin : ¬ ∀ (w : Wallet Bytes Unit) (blocks : List Block) (h : Nat),
    w.ScannedTo 0 → AtHeights 1 blocks → h ≤ blocks.length →
      (w.scan noteNet plainCurve blocks).scanBlockUndo h =
        w.scan noteNet plainCurve (blocks.take (h - 1)) := by
  intro restores
  have same := restores newWallet [mintBlock] 1 newWallet_unscanned ⟨rfl, trivial⟩ le_rfl
  have coins := congrArg (fun w => w.zkCoins.length) same
  have kept : ((newWallet.scan noteNet plainCurve [mintBlock]).scanBlockUndo 1).zkCoins.length =
      1 := by
    decide
  have none : (newWallet.scan noteNet plainCurve ([mintBlock].take (1 - 1))).zkCoins.length =
      0 := rfl
  rw [kept, none] at coins
  exact absurd coins (by decide)

end Wallet

end Obscura
