import Obscura.Lib.Reader
import Obscura.Store
import Obscura.Wallet

/-! # The wallet's state file

A wallet saves its scan state as a sequence of sections: the height and the outputs, the
payments, the number of subaddresses, the heights of the spends, the commitment-tree
coins. They are read back into the live wallet one after another, each with its own
limits. A saved state is restored exactly when it is within these limits, and a refused
file leaves the wallet alone exactly when it is refused before the first section ends.
-/

namespace Obscura

open Wire Tx Wire.Reader

namespace Wallet

/-! ## What is saved -/

/-- An output as it is saved. -/
structure SavedOutput (Scalar : Type) where
  oneTimeKey : Bytes
  commitment : Bytes
  lockUntil : UInt64
  amount : UInt64
  mask : Scalar
  oneTime : Option Scalar
  height : UInt64
  isCoinbase : Bool
  spent : Bool
  spentHeight : UInt64 := 0
deriving DecidableEq

/-- A payment as it is saved. -/
structure SavedSent where
  txID : Bytes
  dest : Bytes
  amount : UInt64
  fee : UInt64
  raw : Bytes
  height : UInt64
  replaced : Bool
  destR : Bytes
deriving DecidableEq

/-- The fields of a wallet that its state file holds, at the widths they have there. -/
structure Saved (Scalar : Type) where
  lastScanned : UInt64 := 0
  outputs : List (SavedOutput Scalar) := []
  sent : List SavedSent := []
  subCount : UInt32 := 0
  zkCoins : List ZKCoin := []

section Codec

variable {Point Scalar : Type} (C : Curve Point Scalar)

/-- What is saved of an output. -/
def OwnedOutput.saved (o : OwnedOutput Scalar) : SavedOutput Scalar where
  oneTimeKey := o.out.oneTimeKey
  commitment := o.out.commitment
  lockUntil := o.out.lockUntil
  amount := o.amount
  mask := o.mask
  oneTime := o.oneTime
  height := UInt64.ofNat o.height
  isCoinbase := o.isCoinbase
  spent := o.spent
  spentHeight := UInt64.ofNat o.spentHeight

/-- The id of a payment is kept as hexadecimal text. -/
def SentTx.saved (s : SentTx) : SavedSent where
  txID := hexstr s.txID
  dest := s.dest
  amount := s.amount
  fee := s.fee
  raw := s.raw
  height := UInt64.ofNat s.height
  replaced := s.replaced
  destR := s.destR

/-- What is saved of a wallet. -/
def saved (w : Wallet Point Scalar) : Saved Scalar where
  lastScanned := UInt64.ofNat w.lastScanned
  outputs := w.outputs.map OwnedOutput.saved
  sent := w.sent.map SentTx.saved
  subCount := UInt32.ofNat w.subCount
  zkCoins := w.zkCoins

/-! ## Writing -/

/-- A word, highest byte first. -/
def put64 (v : UInt64) : Bytes := putU64 v.toNat

/-- A copy into 32 bytes. -/
def put32 (p : Bytes) : Bytes := (p ++ List.replicate 32 0).take 32

/-- A flag in a byte. -/
def putBool (v : Bool) : Bytes := if v then [1] else [0]

/-- A field after its length. -/
def putField (p : Bytes) : Bytes := put64 (UInt64.ofNat p.length) ++ p

/-- A watch-only wallet has no one-time secrets, and writes zeros for them. -/
def oneTimeBytes (oneTime : Option Scalar) : Bytes :=
  match oneTime with
  | some x => C.scalarBytes x
  | none => List.replicate 32 0

/-- The saved form of an output. -/
def putOutput (o : SavedOutput Scalar) : Bytes :=
  put32 o.oneTimeKey ++ put32 o.commitment ++ put64 o.lockUntil ++ put64 o.amount ++
    C.scalarBytes o.mask ++ oneTimeBytes C o.oneTime ++ put64 o.height ++
    (putBool o.isCoinbase ++ putBool o.spent)

/-- The saved form of a payment. -/
def putSent (s : SavedSent) : Bytes :=
  putField s.txID ++ putField s.dest ++ put64 s.amount ++ put64 s.fee ++ putField s.raw ++
    put64 s.height ++ putBool s.replaced ++ putField s.destR

/-- The saved form of a coin. -/
def putCoin (c : ZKCoin) : Bytes :=
  put64 c.amount ++ put64 c.rho ++ put64 c.blind ++ put64 c.nsk ++ put32 c.leaf

/-- A section: how many records follow, and the records. -/
def putCounted {α : Type} (put : α → Bytes) (values : List α) : Bytes :=
  put64 (UInt64.ofNat values.length) ++ values.flatMap put

/-- `MarshalState`: the sections in their order. -/
def marshalState (w : Saved Scalar) : Bytes :=
  put64 w.lastScanned ++ putCounted (putOutput C) w.outputs ++ putCounted putSent w.sent ++
    put64 w.subCount.toUInt64 ++ w.outputs.flatMap (fun o => put64 o.spentHeight) ++
    putCounted putCoin w.zkCoins

/-! ## Reading -/

/-- So many bytes, or the error. -/
def getN (n : Nat) : Reader Bytes := fun input =>
  if n ≤ input.length then .ok (input.take n, input.drop n) else .error "wallet: short state"

/-- A word, highest byte first. -/
def get64 : Reader UInt64 := do
  let bytes ← getN 8
  pure (UInt64.ofNat (ofBigEndian bytes))

/-- A field after its length, which has a limit. -/
def getBytes : Reader Bytes := do
  let n ← get64
  refuse (n.toNat > 1 <<< 20) "wallet: implausible sent field"
  getN n.toNat

/-- Whether all bytes are 0. -/
def allZero (bytes : Bytes) : Bool := bytes.all (· = 0)

/-- A scalar in its canonical form. -/
def readScalar (bytes : Bytes) : Reader Scalar :=
  ofOutcome (match C.scalarSetBytes bytes with
    | some s => .ok s
    | none => .error "invalid scalar encoding")

/-- An all-zero one-time secret stands for none. -/
def readOneTime (bytes : Bytes) : Reader (Option Scalar) :=
  if allZero bytes then
    pure none
  else do
    let x ← readScalar C bytes
    pure (some x)

/-- An output, read back. -/
def readOutput : Reader (SavedOutput Scalar) := do
  let oneTimeKey ← getN 32
  let commitment ← getN 32
  let lockUntil ← get64
  let amount ← get64
  let mb ← getN 32
  let ob ← getN 32
  let height ← get64
  let flags ← getN 2
  let mask ← readScalar C mb
  let oneTime ← readOneTime C ob
  pure
    { oneTimeKey, commitment, lockUntil, amount, mask, oneTime, height
      isCoinbase := flags.getD 0 0 = 1
      spent := flags.getD 1 0 = 1 }

/-- A payment, read back. -/
def readSent : Reader SavedSent := do
  let txID ← getBytes
  let dest ← getBytes
  let amount ← get64
  let fee ← get64
  let raw ← getBytes
  let height ← get64
  let rep ← getN 1
  let destR ← getBytes
  pure { txID, dest, amount, fee, raw, height, replaced := rep.getD 0 0 = 1, destR }

/-- A coin, read back. -/
def readCoin : Reader ZKCoin := do
  let amount ← get64
  let rb ← getN 8
  let bb ← getN 8
  let nb ← getN 8
  let leaf ← getN 32
  pure
    { amount, rho := feltFromBytes rb, blind := feltFromBytes bb, nsk := feltFromBytes nb, leaf }

/-- What is read before the wallet is touched: the height and the outputs. -/
def readHead : Reader (UInt64 × List (SavedOutput Scalar)) := do
  let lastScanned ← get64
  let cnt ← get64
  refuse (cnt.toNat > 1 <<< 24) "wallet: implausible output count"
  let outs ← times (readOutput C) cnt.toNat
  pure (lastScanned, outs)

/-- Records appended one by one: those before an error stay. -/
def readList {α : Type} (reader : Reader α) : Nat → Bytes → List α × Except String Bytes
  | 0, rest => ([], .ok rest)
  | n + 1, data =>
    match reader data with
    | .error err => ([], .error err)
    | .ok (value, rest) =>
      let later := readList reader n rest
      (value :: later.1, later.2)

/-- A section: what could be read of it, and the rest or the error. -/
def readCounted {α : Type} (reader : Reader α) (refusal : String) (data : Bytes) :
    List α × Except String Bytes :=
  match get64 data with
  | .error err => ([], .error err)
  | .ok (n, rest) =>
    if n.toNat > 1 <<< 20 then ([], .error refusal) else readList reader n.toNat rest

/-- The heights of the spends, in the order of the outputs. -/
def readHeights : List (SavedOutput Scalar) → Bytes →
    List (SavedOutput Scalar) × Except String Bytes
  | [], rest => ([], .ok rest)
  | o :: outs, data =>
    match get64 data with
    | .error err => (o :: outs, .error err)
    | .ok (spentHeight, rest) =>
      let later := readHeights outs rest
      ({ o with spentHeight } :: later.1, later.2)

/-! Each section is read into the wallet, with the error that ends the reading. A file of
an older wallet ends before some section. -/

/-- The last section; a state from before it has none. -/
def restoreCoins (w : Saved Scalar) (data : Bytes) : Saved Scalar × Option String :=
  if data = [] then
    ({ w with zkCoins := [] }, none)
  else
    match readCounted readCoin "wallet: implausible zk-coin count" data with
    | (zkCoins, .error err) => ({ w with zkCoins }, some err)
    | (zkCoins, .ok _) => ({ w with zkCoins }, none)

/-- The heights of the spends, then the coins. -/
def restoreHeights (w : Saved Scalar) (data : Bytes) : Saved Scalar × Option String :=
  if data = [] then
    restoreCoins w data
  else
    match readHeights w.outputs data with
    | (outputs, .error err) => ({ w with outputs }, some err)
    | (outputs, .ok rest) => restoreCoins { w with outputs } rest

/-- The number of subaddresses, then the rest. -/
def restoreSubCount (w : Saved Scalar) (data : Bytes) : Saved Scalar × Option String :=
  if data = [] then
    restoreHeights { w with subCount := 0 } data
  else
    match get64 data with
    | .error err => ({ w with subCount := 0 }, some err)
    | .ok (sc, rest) =>
      if sc.toNat > 1 <<< 20 then
        ({ w with subCount := 0 }, some "wallet: implausible subaddress count")
      else
        restoreHeights { w with subCount := sc.toUInt32 } rest

/-- The payments, then the rest. -/
def restoreSent (w : Saved Scalar) (data : Bytes) : Saved Scalar × Option String :=
  if data = [] then
    ({ w with sent := [] }, none)
  else
    match readCounted readSent "wallet: implausible sent count" data with
    | (sent, .error err) => ({ w with sent }, some err)
    | (sent, .ok rest) => restoreSubCount { w with sent } rest

/-- `RestoreState`: what has been read stays when a later section fails. -/
def restoreState (w : Saved Scalar) (data : Bytes) : Saved Scalar × Option String :=
  match readHead C data with
  | .error err => (w, some err)
  | .ok ((lastScanned, outputs), rest) => restoreSent { w with lastScanned, outputs } rest

/-! ## Reading back what was written -/

/-- What the state file relies on of `edwards25519` scalars: 32 bytes, and exactly the
canonical ones are decoded. -/
structure ScalarCodec : Prop where
  length : ∀ s, (C.scalarBytes s).length = 32
  decode : ∀ s, C.scalarSetBytes (C.scalarBytes s) = some s
  canonical : ∀ bytes s, C.scalarSetBytes bytes = some s → C.scalarBytes s = bytes

theorem getN_append {n : Nat} {bytes : Bytes} (length : bytes.length = n) (rest : Bytes) :
    getN n (bytes ++ rest) = .ok (bytes, rest) := by
  rw [getN, if_pos (by simp [← length]), List.take_left' length, List.drop_left' length]

@[simp] theorem length_put64 (v : UInt64) : (put64 v).length = 8 := length_bigEndian 8 _

@[simp] theorem length_put32 (p : Bytes) : (put32 p).length = 32 := by
  simp [put32]

theorem put32_eq {p : Bytes} (length : p.length = 32) : put32 p = p := List.take_left' length

@[simp] theorem length_putBool (v : Bool) : (putBool v).length = 1 := by
  cases v <;> rfl

theorem ofNat_put64 (v : UInt64) : UInt64.ofNat (ofBigEndian (put64 v)) = v := by
  rw [put64, putU64, ofBigEndian_bigEndian, Nat.mod_eq_of_lt (by simpa using v.toNat_lt)]
  exact UInt64.ofNat_toNat

theorem reads_get64 : Reads get64 put64 fun _ => True := by
  intro v _ rest
  rw [get64, bind_run (getN_append (length_put64 v) rest), ofNat_put64]
  rfl

theorem reads_getBytes : Reads getBytes putField fun p => p.length ≤ 1 <<< 20 := by
  intro p short rest
  have size : (UInt64.ofNat p.length).toNat = p.length :=
    UInt64.toNat_ofNat_of_lt' (lt_of_le_of_lt short (by decide))
  rw [getBytes, putField, List.append_assoc, reads_get64.run trivial,
    refuse_run (by rw [size]; exact Nat.not_lt.mpr short), size]
  exact getN_append rfl rest

theorem reads_readScalar {C : Curve Point Scalar} (codec : ScalarCodec C) (s : Scalar)
    (rest : Bytes) : readScalar C (C.scalarBytes s) rest = .ok (s, rest) := by
  rw [readScalar, codec.decode]
  rfl

/-- An output that the file holds without loss: its keys fill their fields, and its
one-time secret is not the zero that stands for none. -/
structure SavedOutput.Storable (o : SavedOutput Scalar) : Prop where
  key : o.oneTimeKey.length = 32
  commitment : o.commitment.length = 32
  secret : ∀ x, o.oneTime = some x → allZero (C.scalarBytes x) = false
  height : o.spentHeight = 0

theorem readOneTime_put {C : Curve Point Scalar} (codec : ScalarCodec C) {oneTime : Option Scalar}
    (secret : ∀ x, oneTime = some x → allZero (C.scalarBytes x) = false) (rest : Bytes) :
    readOneTime C (oneTimeBytes C oneTime) rest = .ok (oneTime, rest) := by
  cases oneTime with
  | none => rfl
  | some x =>
    rw [oneTimeBytes, readOneTime, secret x rfl, if_neg Bool.false_ne_true,
      bind_run (reads_readScalar codec x rest)]
    rfl

theorem length_oneTimeBytes {C : Curve Point Scalar} (codec : ScalarCodec C)
    (oneTime : Option Scalar) : (oneTimeBytes C oneTime).length = 32 := by
  cases oneTime with
  | none => rfl
  | some x => exact codec.length x

theorem flags_put (first second : Bool) :
    ((putBool first ++ putBool second).getD 0 0 = 1 : Bool) = first ∧
      ((putBool first ++ putBool second).getD 1 0 = 1 : Bool) = second := by
  cases first <;> cases second <;> decide

/-- An output is read back. -/
theorem reads_readOutput {C : Curve Point Scalar} (codec : ScalarCodec C) :
    Reads (readOutput C) (putOutput C) (SavedOutput.Storable C) := by
  intro o storable rest
  have flags : (putBool o.isCoinbase ++ putBool o.spent).length = 2 := by simp
  obtain ⟨coinbase, spent⟩ := flags_put o.isCoinbase o.spent
  have code : putOutput C o = o.oneTimeKey ++ (o.commitment ++ (put64 o.lockUntil ++
      (put64 o.amount ++ (C.scalarBytes o.mask ++ (oneTimeBytes C o.oneTime ++
        (put64 o.height ++ (putBool o.isCoinbase ++ putBool o.spent))))))) := by
    rw [putOutput, put32_eq storable.key, put32_eq storable.commitment]
    simp only [List.append_assoc]
  rw [code]
  simp only [List.append_assoc _ _ rest]
  rw [readOutput, bind_run (getN_append storable.key _),
    bind_run (getN_append storable.commitment _), reads_get64.run trivial,
    reads_get64.run trivial, bind_run (getN_append (codec.length _) _),
    bind_run (getN_append (length_oneTimeBytes codec _) _), reads_get64.run trivial,
    ← List.append_assoc (putBool _), bind_run (getN_append flags _),
    bind_run (reads_readScalar codec _ _), bind_run (readOneTime_put codec storable.secret _),
    coinbase, spent, ← storable.height]
  rfl

/-- A payment whose fields are within the limit of a field. -/
structure SavedSent.Short (s : SavedSent) : Prop where
  txID : s.txID.length ≤ 1 <<< 20
  dest : s.dest.length ≤ 1 <<< 20
  raw : s.raw.length ≤ 1 <<< 20
  destR : s.destR.length ≤ 1 <<< 20

/-- A payment is read back. -/
theorem reads_readSent : Reads readSent putSent SavedSent.Short := by
  intro s short rest
  have replaced : ((putBool s.replaced).getD 0 0 = 1 : Bool) = s.replaced := by
    cases s.replaced <;> decide
  simp only [putSent, List.append_assoc]
  rw [readSent, reads_getBytes.run short.txID, reads_getBytes.run short.dest,
    reads_get64.run trivial, reads_get64.run trivial, reads_getBytes.run short.raw,
    reads_get64.run trivial, bind_run (getN_append (length_putBool _) _),
    reads_getBytes.run short.destR, replaced]
  rfl

/-- A coin of field elements and a 32-byte leaf. -/
structure ZKCoin.Canonical (c : ZKCoin) : Prop where
  rho : c.rho.toNat < Config.goldilocks
  blind : c.blind.toNat < Config.goldilocks
  nsk : c.nsk.toNat < Config.goldilocks
  leaf : c.leaf.length = 32

theorem feltFromBytes_put64 {x : UInt64} (canonical : x.toNat < Config.goldilocks) :
    feltFromBytes (put64 x) = x := by
  rw [feltFromBytes, List.take_of_length_le (by simp), ofNat_put64, newFelt,
    if_neg (Nat.not_le.mpr canonical)]

/-- A coin is read back. -/
theorem reads_readCoin : Reads readCoin putCoin ZKCoin.Canonical := by
  intro c canonical rest
  simp only [putCoin, List.append_assoc]
  rw [readCoin, reads_get64.run trivial, bind_run (getN_append (length_put64 _) _),
    bind_run (getN_append (length_put64 _) _), bind_run (getN_append (length_put64 _) _),
    bind_run (getN_append (length_put32 _) _), feltFromBytes_put64 canonical.rho,
    feltFromBytes_put64 canonical.blind, feltFromBytes_put64 canonical.nsk,
    put32_eq canonical.leaf]
  rfl

/-- A list is read back. -/
theorem readList_put {α : Type} {reader : Reader α} {put : α → Bytes} {valid : α → Prop}
    (reads : Reads reader put valid) (values : List α) (fit : ∀ value ∈ values, valid value)
    (rest : Bytes) :
    readList reader values.length (values.flatMap put ++ rest) = (values, .ok rest) := by
  induction values with
  | nil => rfl
  | cons value values ih =>
    have first := reads value (fit value List.mem_cons_self) (values.flatMap put ++ rest)
    rw [List.length_cons, List.flatMap_cons, List.append_assoc]
    simp only [readList, first, ih fun other member => fit other (List.mem_cons_of_mem _ member)]

/-- A section is read back. -/
theorem readCounted_put {α : Type} {reader : Reader α} {put : α → Bytes} {valid : α → Prop}
    (reads : Reads reader put valid) {values : List α} (fit : ∀ value ∈ values, valid value)
    (few : values.length ≤ 1 <<< 20) (refusal : String) (rest : Bytes) :
    readCounted reader refusal (putCounted put values ++ rest) = (values, .ok rest) := by
  have size : (UInt64.ofNat values.length).toNat = values.length :=
    UInt64.toNat_ofNat_of_lt' (lt_of_le_of_lt few (by decide))
  rw [putCounted, List.append_assoc]
  simp only [readCounted, reads_get64 _ trivial, size, Nat.not_lt.mpr few, ↓reduceIte]
  exact readList_put reads values fit rest

/-- The outputs as they are read before the heights of their spends. -/
def SavedOutput.unspent (o : SavedOutput Scalar) : SavedOutput Scalar :=
  { o with spentHeight := 0 }

theorem readHeights_put (outs : List (SavedOutput Scalar)) (rest : Bytes) :
    readHeights (outs.map SavedOutput.unspent)
      (outs.flatMap (fun o => put64 o.spentHeight) ++ rest) = (outs, .ok rest) := by
  induction outs with
  | nil => rfl
  | cons o outs ih =>
    rw [List.map_cons, List.flatMap_cons, List.append_assoc]
    simp only [readHeights, reads_get64 _ trivial, ih]
    rfl

/-- The limits of the state file. -/
structure Saved.Within (w : Saved Scalar) : Prop where
  outputs : w.outputs.length ≤ 1 <<< 24
  secrets : ∀ o ∈ w.outputs, ∀ x, o.oneTime = some x → allZero (C.scalarBytes x) = false
  sent : w.sent.length ≤ 1 <<< 20
  fields : ∀ s ∈ w.sent, s.Short
  subCount : w.subCount.toNat ≤ 1 <<< 20
  coins : w.zkCoins.length ≤ 1 <<< 20

/-- What scanning gives the records of a wallet. -/
structure Saved.Shaped (w : Saved Scalar) : Prop where
  keys : ∀ o ∈ w.outputs, o.oneTimeKey.length = 32 ∧ o.commitment.length = 32
  coins : ∀ c ∈ w.zkCoins, c.Canonical

variable {C}

theorem putCounted_ne_nil {α : Type} (put : α → Bytes) (values : List α) (rest : Bytes) :
    putCounted put values ++ rest ≠ [] := by
  refine List.ne_nil_of_length_pos ?_
  rw [putCounted, List.length_append, List.length_append, length_put64]
  omega

/-- The coins are restored. -/
theorem restoreCoins_put (w : Saved Scalar) {coins : List ZKCoin}
    (canonical : ∀ c ∈ coins, c.Canonical) (few : coins.length ≤ 1 <<< 20) :
    restoreCoins w (putCounted putCoin coins) = ({ w with zkCoins := coins }, none) := by
  have read := readCounted_put reads_readCoin canonical few
    "wallet: implausible zk-coin count" []
  have more := putCounted_ne_nil putCoin coins []
  rw [List.append_nil] at read more
  rw [restoreCoins, if_neg more, read]

/-- The head is read back. -/
theorem readHead_put (codec : ScalarCodec C) (lastScanned : UInt64)
    {outs : List (SavedOutput Scalar)} (storable : ∀ o ∈ outs, o.Storable C)
    (few : outs.length ≤ 1 <<< 24) (rest : Bytes) :
    readHead C (put64 lastScanned ++ (putCounted (putOutput C) outs ++ rest)) =
      .ok ((lastScanned, outs), rest) := by
  have size : (UInt64.ofNat outs.length).toNat = outs.length :=
    UInt64.toNat_ofNat_of_lt' (lt_of_le_of_lt few (by decide))
  rw [readHead, reads_get64.run trivial, putCounted, List.append_assoc, reads_get64.run trivial,
    refuse_run (by rw [size]; exact Nat.not_lt.mpr few), size,
    bind_run ((reads_readOutput codec).times outs storable rest)]
  rfl

/-- A saved state within the limits is restored whole, into any wallet. -/
theorem restore_marshal (codec : ScalarCodec C) {s : Saved Scalar} (shaped : s.Shaped)
    (within : s.Within C) (w : Saved Scalar) :
    restoreState C w (marshalState C s) = (s, none) := by
  have storable : ∀ o ∈ s.outputs.map SavedOutput.unspent, o.Storable C := by
    intro o member
    obtain ⟨o, held, rfl⟩ := List.mem_map.mp member
    obtain ⟨key, commitment⟩ := shaped.keys o held
    exact ⟨key, commitment, within.secrets o held, rfl⟩
  have head := readHead_put codec s.lastScanned storable
    (by rw [List.length_map]; exact within.outputs)
    (putCounted putSent s.sent ++ (put64 s.subCount.toUInt64 ++
      (s.outputs.flatMap (fun o => put64 o.spentHeight) ++ putCounted putCoin s.zkCoins)))
  have outputs : putCounted (putOutput C) (s.outputs.map SavedOutput.unspent) =
      putCounted (putOutput C) s.outputs := by
    rw [putCounted, putCounted, List.length_map, List.flatMap_map]
    rfl
  have count : s.subCount.toUInt64.toNat ≤ 1 <<< 20 := by
    rw [UInt32.toNat_toUInt64]
    exact within.subCount
  have later : put64 s.subCount.toUInt64 ++ (s.outputs.flatMap (fun o => put64 o.spentHeight) ++
      putCounted putCoin s.zkCoins) ≠ [] := by
    refine List.ne_nil_of_length_pos ?_
    rw [List.length_append, length_put64]
    omega
  have coins : s.outputs.flatMap (fun o => put64 o.spentHeight) ++ putCounted putCoin s.zkCoins ≠
      [] := by
    have last := putCounted_ne_nil putCoin s.zkCoins []
    rw [List.append_nil] at last
    exact List.append_ne_nil_of_right_ne_nil _ last
  rw [outputs] at head
  simp only [marshalState, List.append_assoc]
  simp only [restoreState, head, restoreSent, putCounted_ne_nil, ↓reduceIte,
    readCounted_put reads_readSent within.fields within.sent, restoreSubCount, later,
    reads_get64 _ trivial, gt_iff_lt, Nat.not_lt.mpr count, restoreHeights, coins,
    readHeights_put, restoreCoins_put _ shaped.coins within.coins]
  simp

/-! ## What is restored without an error -/

/-- So many bytes. -/
theorem yields_getN (n : Nat) : Yields (getN n) fun bytes => bytes.length = n := by
  intro input bytes rest read
  unfold getN at read
  split at read
  · next enough =>
      obtain ⟨rfl, -⟩ := Prod.mk.inj (Except.ok.inj read)
      exact List.length_take_of_le enough
  · cases read

theorem yields_getBytes : Yields getBytes fun p => p.length ≤ 1 <<< 20 := by
  refine (Yields.trivial get64).bind fun n _ => (Yields.refuse _).bind fun _ short => ?_
  intro input bytes rest read
  have length := yields_getN n.toNat input bytes rest read
  omega

theorem yields_readSent : Yields readSent SavedSent.Short :=
  yields_getBytes.bind fun _ txID => yields_getBytes.bind fun _ dest =>
    (Yields.trivial _).bind fun _ _ => (Yields.trivial _).bind fun _ _ =>
      yields_getBytes.bind fun _ raw => (Yields.trivial _).bind fun _ _ =>
        (Yields.trivial _).bind fun _ _ => yields_getBytes.bind fun _ destR =>
          Yields.pure ⟨txID, dest, raw, destR⟩

theorem yields_readOneTime (codec : ScalarCodec C) (bytes : Bytes) :
    Yields (readOneTime C bytes) fun oneTime =>
      ∀ x, oneTime = some x → allZero (C.scalarBytes x) = false := by
  unfold readOneTime
  split
  · exact Yields.pure nofun
  · next nonzero =>
      intro input oneTime rest read
      obtain ⟨x, middle, scalar, done⟩ := bind_ok.mp read
      obtain ⟨rfl, -⟩ := Prod.mk.inj (pure_ok.mp done)
      intro y same
      obtain rfl := Option.some.inj same
      have decoded := (ofOutcome_ok.mp scalar).1
      split at decoded
      · next value found =>
          obtain rfl := Except.ok.inj decoded
          rw [codec.canonical bytes _ found]
          simpa using nonzero
      · cases decoded

theorem yields_readOutput (codec : ScalarCodec C) :
    Yields (readOutput C) (SavedOutput.Storable C) :=
  (yields_getN 32).bind fun _ key => (yields_getN 32).bind fun _ commitment =>
    (Yields.trivial _).bind fun _ _ => (Yields.trivial _).bind fun _ _ =>
      (Yields.trivial _).bind fun _ _ => (Yields.trivial _).bind fun ob _ =>
        (Yields.trivial _).bind fun _ _ => (Yields.trivial _).bind fun _ _ =>
          (Yields.trivial _).bind fun _ _ => (yields_readOneTime codec ob).bind
            fun _ secret => Yields.pure ⟨key, commitment, secret, rfl⟩

/-- A felt is canonical. -/
theorem newFelt_lt (x : UInt64) : (newFelt x).toNat < Config.goldilocks := by
  have word : x.toNat < 2 ^ 64 := x.toNat_lt
  unfold newFelt
  split
  · next large =>
      have modulus : (UInt64.ofNat Config.goldilocks).toNat = Config.goldilocks := by decide
      have below : UInt64.ofNat Config.goldilocks ≤ x := by
        rw [UInt64.le_iff_toNat_le, modulus]
        exact large
      rw [UInt64.toNat_sub_of_le _ _ below, modulus]
      have twice : 2 ^ 64 < 2 * Config.goldilocks := by decide
      omega
  · next small => exact Nat.not_le.mp small

theorem yields_readCoin : Yields readCoin ZKCoin.Canonical :=
  (Yields.trivial _).bind fun _ _ => (Yields.trivial _).bind fun _ _ =>
    (Yields.trivial _).bind fun _ _ => (Yields.trivial _).bind fun _ _ =>
      (yields_getN 32).bind fun _ leaf =>
        Yields.pure ⟨newFelt_lt _, newFelt_lt _, newFelt_lt _, leaf⟩

theorem yields_readHead (codec : ScalarCodec C) :
    Yields (readHead C) fun head => head.2.length ≤ 1 <<< 24 ∧ ∀ o ∈ head.2, o.Storable C :=
  (Yields.trivial _).bind fun _ _ => (Yields.trivial _).bind fun cnt _ =>
    (Yields.refuse _).bind fun _ few => ((yields_readOutput codec).times cnt.toNat).bind
      fun outs read => Yields.pure ⟨by rw [read.1]; exact Nat.not_lt.mp few, read.2⟩

/-- What was read in a list. -/
theorem readList_ok {α : Type} {reader : Reader α} {valid : α → Prop}
    (yields : Yields reader valid) {n : Nat} {data rest : Bytes} {values : List α}
    (read : readList reader n data = (values, .ok rest)) :
    values.length = n ∧ ∀ value ∈ values, valid value := by
  induction n generalizing data values with
  | zero =>
    obtain ⟨rfl, -⟩ := Prod.mk.inj read
    exact ⟨rfl, by simp⟩
  | succ n ih =>
    simp only [readList] at read
    split at read
    · exact nomatch (Prod.mk.inj read).2
    · next value middle first =>
        obtain ⟨rfl, later⟩ := Prod.mk.inj read
        obtain ⟨length, others⟩ := ih (Prod.ext rfl later)
        refine ⟨by rw [List.length_cons, length], fun other member => ?_⟩
        rcases List.mem_cons.mp member with rfl | member
        · exact yields _ _ _ first
        · exact others other member

/-- What was read in a section. -/
theorem readCounted_ok {α : Type} {reader : Reader α} {valid : α → Prop}
    (yields : Yields reader valid) {refusal : String} {data rest : Bytes} {values : List α}
    (read : readCounted reader refusal data = (values, .ok rest)) :
    values.length ≤ 1 <<< 20 ∧ ∀ value ∈ values, valid value := by
  simp only [readCounted] at read
  split at read
  · exact nomatch (Prod.mk.inj read).2
  · split at read
    · exact nomatch (Prod.mk.inj read).2
    · next few =>
        obtain ⟨length, fit⟩ := readList_ok yields read
        exact ⟨by omega, fit⟩

/-- The heights change nothing else. -/
theorem readHeights_ok {outs outs' : List (SavedOutput Scalar)} {data rest : Bytes}
    (read : readHeights outs data = (outs', .ok rest)) :
    outs'.map SavedOutput.unspent = outs.map SavedOutput.unspent := by
  induction outs generalizing data outs' with
  | nil =>
    obtain ⟨rfl, -⟩ := Prod.mk.inj read
    rfl
  | cons o outs ih =>
    simp only [readHeights] at read
    split at read
    · exact nomatch (Prod.mk.inj read).2
    · obtain ⟨rfl, later⟩ := Prod.mk.inj read
      rw [List.map_cons, List.map_cons, ih (Prod.ext rfl later)]
      rfl

section Restored

variable {w s : Saved Scalar} {data : Bytes}

/-- The coins can be read back. -/
def CoinsFit (w : Saved Scalar) : Prop :=
  w.zkCoins.length ≤ 1 <<< 20 ∧ ∀ c ∈ w.zkCoins, c.Canonical

theorem restoreCoins_ok (restored : restoreCoins w data = (s, none)) :
    CoinsFit s ∧ s = { w with zkCoins := s.zkCoins } := by
  unfold restoreCoins at restored
  split at restored
  · obtain ⟨rfl, -⟩ := Prod.mk.inj restored
    exact ⟨⟨Nat.zero_le _, by simp⟩, rfl⟩
  · split at restored
    · exact nomatch (Prod.mk.inj restored).2
    · next coins rest read =>
        obtain ⟨rfl, -⟩ := Prod.mk.inj restored
        exact ⟨readCounted_ok yields_readCoin read, rfl⟩

/-- What restoring the heights leaves. -/
theorem restoreHeights_ok (restored : restoreHeights w data = (s, none)) :
    CoinsFit s ∧ s.outputs.map SavedOutput.unspent = w.outputs.map SavedOutput.unspent ∧
      s = { w with outputs := s.outputs, zkCoins := s.zkCoins } := by
  unfold restoreHeights at restored
  split at restored
  · obtain ⟨few, same⟩ := restoreCoins_ok restored
    have outputs : s.outputs = w.outputs := by rw [same]
    rw [outputs]
    exact ⟨few, rfl, same⟩
  · split at restored
    · exact nomatch (Prod.mk.inj restored).2
    · next outs rest read =>
        obtain ⟨few, same⟩ := restoreCoins_ok restored
        have outputs : s.outputs = outs := by rw [same]
        rw [outputs]
        exact ⟨few, readHeights_ok read, same⟩

/-- What restoring the subaddresses leaves. -/
theorem restoreSubCount_ok (restored : restoreSubCount w data = (s, none)) :
    CoinsFit s ∧ s.subCount.toNat ≤ 1 <<< 20 ∧
      s.outputs.map SavedOutput.unspent = w.outputs.map SavedOutput.unspent ∧
      s = { w with outputs := s.outputs, subCount := s.subCount, zkCoins := s.zkCoins } := by
  unfold restoreSubCount at restored
  split at restored
  · obtain ⟨few, outputs, same⟩ := restoreHeights_ok restored
    have count : s.subCount = 0 := by rw [same]
    rw [count]
    exact ⟨few, Nat.zero_le _, outputs, same⟩
  · split at restored
    · exact nomatch (Prod.mk.inj restored).2
    · next sc rest read =>
        split at restored
        · exact nomatch (Prod.mk.inj restored).2
        · next few' =>
            obtain ⟨few, outputs, same⟩ := restoreHeights_ok restored
            have count : s.subCount = sc.toUInt32 := by rw [same]
            refine ⟨few, ?_, outputs, count ▸ same⟩
            rw [count, UInt64.toNat_toUInt32]
            exact (Nat.mod_le _ _).trans (Nat.not_lt.mp few')

/-- What restoring the payments leaves. -/
theorem restoreSent_ok (restored : restoreSent w data = (s, none))
    (subCount : w.subCount.toNat ≤ 1 <<< 20) (coins : CoinsFit w) :
    CoinsFit s ∧ s.subCount.toNat ≤ 1 <<< 20 ∧
      s.sent.length ≤ 1 <<< 20 ∧ (∀ t ∈ s.sent, t.Short) ∧
      s.outputs.map SavedOutput.unspent = w.outputs.map SavedOutput.unspent := by
  unfold restoreSent at restored
  split at restored
  · obtain ⟨rfl, -⟩ := Prod.mk.inj restored
    exact ⟨coins, subCount, Nat.zero_le _, by simp, rfl⟩
  · split at restored
    · exact nomatch (Prod.mk.inj restored).2
    · next sent rest read =>
        obtain ⟨few, count, outputs, same⟩ := restoreSubCount_ok restored
        obtain ⟨length, short⟩ := readCounted_ok yields_readSent read
        have sentEq : s.sent = sent := by rw [same]
        rw [sentEq]
        exact ⟨few, count, length, short, outputs⟩

theorem within_of_restored (codec : ScalarCodec C)
    (restored : restoreState C {} data = (s, none)) : s.Within C ∧ s.Shaped := by
  unfold restoreState at restored
  split at restored
  · exact nomatch (Prod.mk.inj restored).2
  · next lastScanned outs rest read =>
      obtain ⟨coins, subCount, sent, fields, outputs⟩ :=
        restoreSent_ok restored (Nat.zero_le _) ⟨Nat.zero_le _, by simp⟩
      obtain ⟨few, storable⟩ := yields_readHead codec data _ _ read
      have length := congrArg List.length outputs
      rw [List.length_map, List.length_map] at length
      -- every restored output is one of those read, but for the height of its spend
      have source : ∀ o ∈ s.outputs, ∃ o' ∈ outs, o'.unspent = o.unspent := by
        intro o held
        have member : o.unspent ∈ outs.map SavedOutput.unspent := by
          rw [← outputs]
          exact List.mem_map_of_mem held
        exact List.mem_map.mp member
      refine ⟨⟨by rw [length]; exact few, ?_, sent, fields, subCount, coins.1⟩, ?_, coins.2⟩
      · intro o held x own
        obtain ⟨o', held', same⟩ := source o held
        have oneTime : o'.unspent.oneTime = o.unspent.oneTime := by rw [same]
        exact (storable o' held').secret x (oneTime.trans own)
      · intro o held
        obtain ⟨o', held', same⟩ := source o held
        have key : o'.unspent.oneTimeKey = o.unspent.oneTimeKey := by rw [same]
        have commitment : o'.unspent.commitment = o.unspent.commitment := by rw [same]
        exact ⟨key ▸ (storable o' held').key, commitment ▸ (storable o' held').commitment⟩

end Restored

/-! ## Refusals -/

/-- A reader gets through the front of the data and leaves a rest. -/
def Skips {α : Type} (reader : Reader α) (data rest : Bytes) : Prop :=
  ∃ value, reader data = .ok (value, rest)

/-- A section that is either read in full or refused. -/
def counted {α : Type} (reader : Reader α) (refusal : String) : Reader (List α) := do
  let n ← get64
  refuse (n.toNat > 1 <<< 20) refusal
  times reader n.toNat

/-- The number of subaddresses, read back. -/
def readSubCount : Reader UInt64 := do
  let sc ← get64
  refuse (sc.toNat > 1 <<< 20) "wallet: implausible subaddress count"
  pure sc

/-- The sections after the outputs; a file may end before each of them. -/
def CoinsParse (data : Bytes) : Prop :=
  data = [] ∨ ∃ rest, Skips (counted readCoin "wallet: implausible zk-coin count") data rest

/-- The heights parse, and so does what follows. -/
def HeightsParse (count : Nat) (data : Bytes) : Prop :=
  data = [] ∨ ∃ rest, Skips (times get64 count) data rest ∧ CoinsParse rest

/-- The number of subaddresses parses, and so does what follows. -/
def SubCountParses (count : Nat) (data : Bytes) : Prop :=
  data = [] ∨ ∃ rest, Skips readSubCount data rest ∧ HeightsParse count rest

/-- The payments parse, and so does what follows. -/
def SentParses (count : Nat) (data : Bytes) : Prop :=
  data = [] ∨ ∃ rest, Skips (counted readSent "wallet: implausible sent count") data rest ∧
    SubCountParses count rest

variable (C) in
/-- A file all of whose sections can be read. -/
def Parses (data : Bytes) : Prop :=
  ∃ head rest, readHead C data = .ok (head, rest) ∧ SentParses head.2.length rest

/-- When a list is read to its end. -/
theorem readList_snd {α : Type} {reader : Reader α} {n : Nat} {data rest : Bytes} :
    (readList reader n data).2 = .ok rest ↔ Skips (times reader n) data rest := by
  induction n generalizing data with
  | zero =>
    constructor
    · intro read
      obtain rfl := Except.ok.inj read
      exact ⟨[], rfl⟩
    · rintro ⟨values, read⟩
      obtain ⟨-, rfl⟩ := Prod.mk.inj (pure_ok.mp read)
      rfl
  | succ n ih =>
    constructor
    · intro read
      simp only [readList] at read
      split at read
      · cases read
      · next value middle first =>
          obtain ⟨values, later⟩ := ih.mp read
          exact ⟨value :: values, by rw [times, bind_run first, bind_run later]; rfl⟩
    · rintro ⟨values, read⟩
      obtain ⟨value, middle, first, read⟩ := bind_ok.mp read
      obtain ⟨others, last, later, done⟩ := bind_ok.mp read
      obtain ⟨-, rfl⟩ := Prod.mk.inj (pure_ok.mp done)
      simp only [readList, first]
      exact ih.mpr ⟨others, later⟩

/-- When a section is read to its end. -/
theorem readCounted_snd {α : Type} {reader : Reader α} {refusal : String}
    {data rest : Bytes} : (readCounted reader refusal data).2 = .ok rest ↔
      Skips (counted reader refusal) data rest := by
  unfold readCounted
  split
  · next err refused =>
      refine iff_of_false (fun read => nomatch read) ?_
      rintro ⟨values, read⟩
      obtain ⟨n, middle, first, -⟩ := bind_ok.mp read
      rw [refused] at first
      cases first
  · next n middle first =>
      have shape (out : List α × Bytes) : counted reader refusal data = .ok out ↔
          ¬ n.toNat > 1 <<< 20 ∧ times reader n.toNat middle = .ok out := by
        rw [counted, bind_run first, bind_ok]
        constructor
        · rintro ⟨_, left, allowed, read⟩
          obtain ⟨few, rfl⟩ := refuse_ok.mp allowed
          exact ⟨few, read⟩
        · rintro ⟨few, read⟩
          exact ⟨(), middle, refuse_ok.mpr ⟨few, rfl⟩, read⟩
      unfold Skips
      simp only [shape]
      split
      · next many =>
          exact iff_of_false (fun read => nomatch read) fun ⟨_, few, _⟩ => few many
      · next few =>
          rw [readList_snd, Skips]
          exact exists_congr fun values => (and_iff_right few).symm

theorem readHeights_snd {outs : List (SavedOutput Scalar)} {data rest : Bytes} :
    (readHeights outs data).2 = .ok rest ↔ Skips (times get64 outs.length) data rest := by
  rw [← readList_snd]
  induction outs generalizing data with
  | nil => rfl
  | cons o outs ih =>
    rw [List.length_cons]
    cases first : get64 data with
    | error err => simp only [readHeights, readList, first, reduceCtorEq]
    | ok out =>
      simp only [readHeights, readList, first]
      exact ih

section Refused

variable (w : Saved Scalar) (data : Bytes)

theorem restoreCoins_none : (restoreCoins w data).2 = none ↔ CoinsParse data := by
  unfold restoreCoins CoinsParse
  split
  · next ended => exact iff_of_true rfl (.inl ended)
  · next more =>
      simp only [more, false_or, ← readCounted_snd]
      split
      · next coins err read => simp [read]
      · next coins rest read => simp [read]

/-- When the heights are. -/
theorem restoreHeights_none :
    (restoreHeights w data).2 = none ↔ HeightsParse w.outputs.length data := by
  unfold restoreHeights HeightsParse
  split
  · next ended => exact iff_of_true ((restoreCoins_none w data).mpr (.inl ended)) (.inl ended)
  · next more =>
      simp only [more, false_or, ← readHeights_snd]
      split
      · next outs err read => simp [read]
      · next outs rest read => simp [read, restoreCoins_none]

theorem readSubCount_skips {rest : Bytes} : Skips readSubCount data rest ↔
    ∃ sc, get64 data = .ok (sc, rest) ∧ ¬ sc.toNat > 1 <<< 20 := by
  constructor
  · rintro ⟨value, read⟩
    obtain ⟨sc, middle, first, read⟩ := bind_ok.mp read
    obtain ⟨_, left, allowed, done⟩ := bind_ok.mp read
    obtain ⟨few, rfl⟩ := refuse_ok.mp allowed
    obtain ⟨-, rfl⟩ := Prod.mk.inj (pure_ok.mp done)
    exact ⟨sc, first, few⟩
  · rintro ⟨sc, first, few⟩
    exact ⟨sc, by rw [readSubCount, bind_run first, refuse_run few]; rfl⟩

/-- When the subaddresses are restored without an error. -/
theorem restoreSubCount_none :
    (restoreSubCount w data).2 = none ↔ SubCountParses w.outputs.length data := by
  unfold restoreSubCount SubCountParses
  split
  · next ended => exact iff_of_true ((restoreHeights_none _ data).mpr (.inl ended)) (.inl ended)
  · next more =>
      simp only [more, false_or, readSubCount_skips]
      split
      · next err read => simp [read]
      · next sc rest read =>
          split
          · next many =>
              refine iff_of_false (fun restored => nomatch restored) ?_
              rintro ⟨rest', ⟨sc', first, few⟩, -⟩
              obtain ⟨rfl, -⟩ := Prod.mk.inj (Except.ok.inj (read.symm.trans first))
              exact few many
          · next few =>
              rw [restoreHeights_none]
              constructor
              · exact fun parses => ⟨rest, ⟨sc, read, few⟩, parses⟩
              · rintro ⟨rest', ⟨sc', first, -⟩, parses⟩
                obtain ⟨-, rfl⟩ := Prod.mk.inj (Except.ok.inj (read.symm.trans first))
                exact parses

/-- When the payments are. -/
theorem restoreSent_none :
    (restoreSent w data).2 = none ↔ SentParses w.outputs.length data := by
  unfold restoreSent SentParses
  split
  · next ended => exact iff_of_true rfl (.inl ended)
  · next more =>
      simp only [more, false_or, ← readCounted_snd]
      split
      · next sent err read => simp [read]
      · next sent rest read => simp [read, restoreSubCount_none]

theorem restoreState_none : (restoreState C w data).2 = none ↔ Parses C data := by
  unfold restoreState Parses
  split
  · next err read => simp [read]
  · next lastScanned outs rest read => simp [read, restoreSent_none]

theorem restoreSent_lastScanned : (restoreSent w data).1.lastScanned = w.lastScanned := by
  have coins (w : Saved Scalar) (data : Bytes) :
      (restoreCoins w data).1.lastScanned = w.lastScanned := by
    unfold restoreCoins
    repeat' split
    all_goals rfl
  have heights (w : Saved Scalar) (data : Bytes) :
      (restoreHeights w data).1.lastScanned = w.lastScanned := by
    unfold restoreHeights
    split
    · exact coins w data
    · split
      · rfl
      · exact coins _ _
  have subCount (w : Saved Scalar) (data : Bytes) :
      (restoreSubCount w data).1.lastScanned = w.lastScanned := by
    unfold restoreSubCount
    split
    · exact heights _ _
    · split
      · rfl
      · split
        · rfl
        · exact heights _ _
  unfold restoreSent
  split
  · rfl
  · split
    · rfl
    · exact subCount _ _

/-- A refusal leaves every wallet alone when the first section is refused, and only then:
a later refusal has moved the scanned height already. -/
theorem unchanged_iff :
    (∀ w : Saved Scalar, (restoreState C w data).2 ≠ none → (restoreState C w data).1 = w) ↔
      (∀ out, readHead C data ≠ .ok out) ∨ Parses C data := by
  constructor
  · intro unchanged
    by_contra neither
    obtain ⟨readable, refused⟩ := not_or.mp neither
    obtain ⟨⟨⟨lastScanned, outs⟩, rest⟩, read⟩ := not_forall_not.mp readable
    have error (w : Saved Scalar) : (restoreState C w data).2 ≠ none :=
      mt (restoreState_none w data).mp refused
    have moved := unchanged { lastScanned := lastScanned + 1 } (error _)
    simp only [restoreState, read] at moved
    have height := congrArg Saved.lastScanned moved
    rw [restoreSent_lastScanned] at height
    simp at height
  · rintro (early | parses) w error
    · unfold restoreState
      split
      · rfl
      · next read => exact absurd read (early _)
    · exact absurd ((restoreState_none w data).mpr parses) error

end Refused

end Codec

/-! ## Reachable wallets -/

section Reach

variable {Point Scalar : Type} [DecidableEq Point] (V : Primitives) (C : Curve Point Scalar)

/-- The wallets that scanning, building and recording lead to. Building a transaction
reserves and releases outputs; a bump marks the payment it replaces; a minted coin is
stored as `CreateZKMint` returns it. A wallet may start from any file that it loads. -/
inductive Reachable : Wallet Point Scalar → Prop
  | start (keys : StealthKeys Point Scalar) (felt : keys.nsk.toNat < Config.goldilocks) :
      Reachable { keys }
  | load {w : Wallet Point Scalar} (felt : w.keys.nsk.toNat < Config.goldilocks) {data : Bytes}
      (loaded : restoreState C {} data = (w.saved, none)) : Reachable w
  | scan {w : Wallet Point Scalar} (reached : Reachable w) (b : Block) :
      Reachable (w.scanBlock V C b)
  | undo {w : Wallet Point Scalar} (reached : Reachable w) (fromHeight : Nat) :
      Reachable (w.scanBlockUndo fromHeight)
  | reserve {w : Wallet Point Scalar} (reached : Reachable w)
      (reserved : OwnedOutput Scalar → Bool) :
      Reachable { w with outputs := w.outputs.map fun o => { o with reserved := reserved o } }
  | subaddress {w : Wallet Point Scalar} (reached : Reachable w) :
      Reachable { w with subCount := (w.subCount + 1) % 2 ^ 32 }
  | record {w : Wallet Point Scalar} (reached : Reachable w) (t : Transaction)
      (dest : Bytes) (amount : UInt64) (destR : Bytes) :
      Reachable { w with
        sent := w.sent ++
          [{ txID := t.hash V, dest, amount, fee := t.fee, raw := t.serialize, destR }] }
  | replace {w : Wallet Point Scalar} (reached : Reachable w) (replaced : SentTx → Bool) :
      Reachable { w with
        sent := w.sent.map fun s => { s with replaced := s.replaced || replaced s } }
  | mint {w : Wallet Point Scalar} (reached : Reachable w) (amount : UInt64) (shared leaf : Bytes)
      (node : leaf.length = 32) :
      Reachable { w with
        zkCoins := addZKCoin w.zkCoins
          { amount, rho := (zkSecretsFromShared V shared).1,
            blind := (zkSecretsFromShared V shared).2, nsk := w.keys.nsk, leaf } }

variable {V C}

theorem feltFromBytes_lt (bytes : Bytes) : (feltFromBytes bytes).toNat < Config.goldilocks :=
  newFelt_lt _

omit [DecidableEq Point] in
theorem subKeys_felt {w : Wallet Point Scalar} (felt : w.keys.nsk.toNat < Config.goldilocks) :
    ∀ k ∈ w.subKeys V C, k.nsk.toNat < Config.goldilocks := by
  intro k among
  rcases List.mem_cons.mp among with rfl | sub
  · exact felt
  · obtain ⟨i, -, rfl⟩ := List.mem_map.mp sub
    unfold StealthKeys.subaddress
    split
    · exact felt
    · split
      · exact felt
      · exact feltFromBytes_lt _

/-- What is claimed has the output's keys. -/
theorem claimed_keys {keys : List (StealthKeys Point Scalar)} {height : Nat} {isCoinbase : Bool}
    {sourceTx : Hash} {held : List (OwnedOutput Scalar)} {o : Output} {own : OwnedOutput Scalar}
    (found : claimed C keys height isCoinbase sourceTx held o = some own) :
    own.out.oneTimeKey.length = 32 ∧ own.out.commitment.length = 32 := by
  unfold claimed at found
  split_ifs at found with ill known
  · obtain ⟨_, -, found⟩ := Option.bind_eq_some_iff.mp found
    cases found
  · rw [not_or, not_or, not_not, not_not, not_not] at ill
    obtain ⟨⟨k, so⟩, -, found⟩ := Option.bind_eq_some_iff.mp found
    obtain ⟨mask, -, found⟩ := Option.bind_eq_some_iff.mp found
    split_ifs at found
    · cases found
      exact ⟨ill.1, ill.2.2⟩
    · split at found
      · cases found
      · cases found
        exact ⟨ill.1, ill.2.2⟩

theorem owner_mem {keys : List (StealthKeys Point Scalar)} {key txPubKey : Bytes} {tag : UInt8}
    {found : StealthKeys Point Scalar × StealthOutput Point}
    (owned : owner C keys key txPubKey tag = some found) : found.1 ∈ keys := by
  obtain ⟨P, -, owned⟩ := Option.bind_eq_some_iff.mp owned
  obtain ⟨R, -, owned⟩ := Option.bind_eq_some_iff.mp owned
  obtain ⟨k, matched, owned⟩ := Option.bind_eq_some_iff.mp owned
  obtain rfl := Option.some.inj owned
  exact List.mem_of_find?_eq_some matched

/-- The coins that are found are canonical. -/
theorem scanZKCoins_canonical {keys : List (StealthKeys Point Scalar)}
    (felt : ∀ k ∈ keys, k.nsk.toNat < Config.goldilocks) (b : Block) :
    ∀ c ∈ scanZKCoins V C keys b, c.Canonical := by
  intro c among
  obtain ⟨t, -, among⟩ := List.mem_flatMap.mp among
  rcases List.mem_append.mp among with minted | sent
  · obtain ⟨o, -, found⟩ := List.mem_filterMap.mp minted
    unfold mintedCoin at found
    split_ifs at found with ill
    rw [not_or, not_or, not_not, not_not, not_not] at ill
    obtain ⟨⟨k, so⟩, owned, found⟩ := Option.bind_eq_some_iff.mp found
    dsimp only at found
    split_ifs at found
    obtain rfl := Option.some.inj found
    exact ⟨feltFromBytes_lt _, feltFromBytes_lt _, felt k (owner_mem owned), ill.2.2⟩
  · obtain ⟨spend, -, found⟩ := List.mem_filterMap.mp sent
    unfold sentCoin at found
    split_ifs at found with ill
    rw [not_or, not_or, not_not, not_not, not_not] at ill
    obtain ⟨⟨k, so⟩, owned, found⟩ := Option.bind_eq_some_iff.mp found
    obtain ⟨amount, -, found⟩ := Option.bind_eq_some_iff.mp found
    split_ifs at found
    obtain rfl := Option.some.inj found
    exact ⟨feltFromBytes_lt _, feltFromBytes_lt _, felt k (owner_mem owned), ill.2.2⟩

theorem undoOutput_out {fromHeight : Nat} {o o' : OwnedOutput Scalar}
    (kept : undoOutput fromHeight o = some o') : o'.out = o.out := by
  unfold undoOutput at kept
  split_ifs at kept
  · rw [← Option.some.inj kept]
  · rw [← Option.some.inj kept]

/-- So are the coins that are kept. -/
theorem addZKCoin_canonical {coins : List ZKCoin} {c : ZKCoin}
    (before : ∀ c ∈ coins, c.Canonical) (new : c.Canonical) :
    ∀ c' ∈ addZKCoin coins c, c'.Canonical := by
  unfold addZKCoin
  split_ifs
  · exact before
  · intro c' among
    rcases List.mem_append.mp among with old | last
    · exact before c' old
    · rw [List.mem_singleton.mp last]
      exact new

/-- The records of a reachable wallet have the shape that the file relies on. -/
structure Regular (w : Wallet Point Scalar) : Prop where
  felt : w.keys.nsk.toNat < Config.goldilocks
  outputs : ∀ o ∈ w.outputs, o.out.oneTimeKey.length = 32 ∧ o.out.commitment.length = 32
  coins : ∀ c ∈ w.zkCoins, c.Canonical

/-- A scan keeps a wallet regular. -/
theorem Regular.scan {w : Wallet Point Scalar} (regular : w.Regular) (b : Block) :
    (w.scanBlock V C b).Regular where
  felt := regular.felt
  outputs := by
    let holds (held : List (OwnedOutput Scalar)) : Prop :=
      ∀ o ∈ held, o.out.oneTimeKey.length = 32 ∧ o.out.commitment.length = 32
    refine foldl_keeps holds (fun held t before => ?_) b.txs ?_
    · refine foldl_keeps holds (fun held o before own among => ?_) t.outputs before
      rcases List.mem_append.mp among with old | new
      · exact before own old
      · exact claimed_keys (Option.mem_toList.mp new)
    · intro o among
      obtain ⟨old, member, rfl⟩ := List.mem_map.mp among
      unfold markSpent
      split_ifs
      · exact regular.outputs old member
      · exact regular.outputs old member
  coins := by
    have found := scanZKCoins_canonical (V := V) (C := C)
      (subKeys_felt (V := V) (C := C) regular.felt) b
    suffices folded : ∀ new : List ZKCoin, (∀ c ∈ new, c.Canonical) → ∀ coins : List ZKCoin,
        (∀ c ∈ coins, c.Canonical) → ∀ c ∈ new.foldl addZKCoin coins, c.Canonical from
      folded _ found _ regular.coins
    intro new
    induction new with
    | nil => exact fun _ coins before => before
    | cons c new ih =>
      intro canonical coins before
      exact ih (fun c' later => canonical c' (List.mem_cons_of_mem _ later)) _
        (addZKCoin_canonical before (canonical c List.mem_cons_self))

/-- Every wallet that can be reached is regular. -/
theorem Reachable.regular {w : Wallet Point Scalar} (codec : ScalarCodec C)
    (reached : Reachable V C w) : w.Regular := by
  induction reached with
  | start keys felt => exact ⟨felt, by simp, by simp⟩
  | load felt loaded =>
    obtain ⟨-, shaped⟩ := within_of_restored codec loaded
    exact ⟨felt, fun o held => shaped.keys o.saved (List.mem_map_of_mem held), shaped.coins⟩
  | scan _ b ih => exact ih.scan b
  | undo _ fromHeight ih =>
    refine ⟨ih.felt, fun o among => ?_, ih.coins⟩
    obtain ⟨old, member, kept⟩ := List.mem_filterMap.mp among
    rw [undoOutput_out kept]
    exact ih.outputs old member
  | reserve _ reserved ih =>
    refine ⟨ih.felt, fun o among => ?_, ih.coins⟩
    obtain ⟨old, member, rfl⟩ := List.mem_map.mp among
    exact ih.outputs old member
  | subaddress _ ih => exact ⟨ih.felt, ih.outputs, ih.coins⟩
  | record _ t dest amount destR ih => exact ⟨ih.felt, ih.outputs, ih.coins⟩
  | replace _ replaced ih => exact ⟨ih.felt, ih.outputs, ih.coins⟩
  | mint _ amount shared leaf node ih =>
    exact ⟨ih.felt, ih.outputs, addZKCoin_canonical ih.coins
      ⟨feltFromBytes_lt _, feltFromBytes_lt _, ih.felt, node⟩⟩

omit [DecidableEq Point] in
theorem Regular.shaped {w : Wallet Point Scalar} (regular : w.Regular) : w.saved.Shaped where
  keys o held := by
    obtain ⟨old, member, rfl⟩ := List.mem_map.mp held
    exact regular.outputs old member
  coins := regular.coins

/-- **The state file.** What a reachable wallet saves is restored whole into a fresh one
exactly when it is within the limits of the file; and a byte string leaves every wallet
that refuses it alone exactly when its first section cannot be read or all of it can. -/
theorem persistence_exact (codec : ScalarCodec C) {w : Wallet Point Scalar}
    (reached : Reachable V C w) :
    (restoreState C {} (marshalState C w.saved) = (w.saved, none) ↔ w.saved.Within C) ∧
      ∀ data, (∀ live : Saved Scalar, (restoreState C live data).2 ≠ none →
          (restoreState C live data).1 = live) ↔
        (∀ out, readHead C data ≠ .ok out) ∨ Parses C data := by
  have shaped := (reached.regular codec).shaped
  refine ⟨⟨fun restored => (within_of_restored codec restored).1, fun within => ?_⟩,
    fun data => unchanged_iff data⟩
  exact restore_marshal codec shaped within {}

end Reach

/-! ## A payment too long for its field, and a file cut short -/

/-- A curve with one scalar. -/
def oneCurve : Curve Bytes Unit :=
  { plainCurve with
    scalarSetBytes := fun bytes => if bytes = 1 :: List.replicate 31 0 then some () else none
    scalarBytes := fun _ => 1 :: List.replicate 31 0 }

theorem oneCurve_codec : ScalarCodec oneCurve where
  length _ := rfl
  decode _ := rfl
  canonical bytes s decoded := by
    by_contra other
    have refused : oneCurve.scalarSetBytes bytes = none := if_neg (Ne.symm other)
    rw [refused] at decoded
    cases decoded

/-- A transaction with a proof of a given length. -/
def longTx (n : Nat) : Transaction := { conservation := List.replicate n 0 }

theorem conservation_length (t : Transaction) : t.conservation.length < t.serialize.length := by
  have inside : (wB t.conservation).Sublist t.serialize := by
    unfold Transaction.serialize
    iterate 12 refine List.Sublist.trans ?_ (List.sublist_append_left _ _)
    exact List.sublist_append_right _ _
  have bound := inside.length_le
  rw [wB, List.length_append, length_bigEndian] at bound
  omega

theorem longTx_length (n : Nat) : n < (longTx n).serialize.length := by
  have proof : (longTx n).conservation = List.replicate n 0 := rfl
  have longer := conservation_length (longTx n)
  rw [proof, List.length_replicate] at longer
  exact longer

/-- A payment whose transaction has so many bytes. -/
def longSent (n : Nat) : SentTx where
  txID := (longTx n).hash noteNet
  dest := zeroHash
  amount := 1
  fee := (longTx n).fee
  raw := (longTx n).serialize

/-- The wallet that has recorded it. -/
def longWallet (n : Nat) : Wallet Bytes Unit :=
  { newWallet with sent := newWallet.sent ++ [longSent n] }

theorem longWallet_reachable (n : Nat) : Reachable noteNet oneCurve (longWallet n) :=
  (Reachable.start newWallet.keys (by decide)).record (longTx n) zeroHash 1 []

/-- The wallet that was paid by a block and has recorded a payment. -/
def paidWallet : Wallet Bytes Unit :=
  let paid := newWallet.scanBlock noteNet oneCurve payBlock
  { paid with sent := paid.sent ++ [longSent 0] }

/-- What was received and what was sent come back from the file. -/
theorem persistence_exact_paid :
    paidWallet.balance = 5 ∧
      restoreState oneCurve {} (marshalState oneCurve paidWallet.saved) =
        (paidWallet.saved, none) := by
  have reached : Reachable noteNet oneCurve paidWallet :=
    ((Reachable.start newWallet.keys (by decide)).scan payBlock).record (longTx 0) zeroHash 1 []
  refine ⟨by decide, (persistence_exact oneCurve_codec reached).1.mpr ?_⟩
  constructor
  case outputs => decide
  case secrets => exact fun _ _ _ _ => rfl
  case sent => decide
  case fields =>
    intro s recorded
    obtain rfl : s = (longSent 0).saved := List.mem_singleton.mp recorded
    constructor <;> decide +kernel
  case subCount => decide
  case coins => decide

theorem longWallet_unreadable {n : Nat} (long : 1 <<< 20 ≤ n) :
    restoreState oneCurve {} (marshalState oneCurve (longWallet n).saved) ≠
      ((longWallet n).saved, none) := by
  intro restored
  have recorded : (longSent n).saved ∈ (longWallet n).saved.sent :=
    List.mem_map_of_mem (List.mem_append_right _ (List.mem_singleton_self _))
  have short := (within_of_restored oneCurve_codec restored).1.fields _ recorded
  exact absurd short.raw (Nat.not_le.mpr (lt_of_le_of_lt long (longTx_length n)))

/-- A state file of a wallet that scanned to height 7, cut short in its second section. -/
def cutFile : Bytes := put64 7 ++ put64 0 ++ [0]

theorem persistence_fails :
    (Reachable noteNet oneCurve (longWallet (2 ^ 20)) ∧
      restoreState oneCurve {} (marshalState oneCurve (longWallet (2 ^ 20)).saved) ≠
        ((longWallet (2 ^ 20)).saved, none)) ∧
    restoreState oneCurve {} cutFile = ({ lastScanned := 7 }, some "wallet: short state") :=
  ⟨⟨longWallet_reachable _, longWallet_unreadable (by decide)⟩, rfl⟩

end Wallet

end Obscura
