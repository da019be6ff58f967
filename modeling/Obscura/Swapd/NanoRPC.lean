import Obscura.Lib.Lossy
import Obscura.Lib.OrdMap
import Obscura.Swapd.NanoAddress

/-! # Locking XNO through a Nano RPC

The client that pays the XNO of a swap into the joint account, by the `send` of a
node wallet or with a funding key of its own, against a ledger that handles every
request that arrives and answers honestly. Requests and responses may be lost, and a
call is repeated three times at every endpoint.

A lock is exact when it moves XNO out of the funding account at most once, by the
amount asked for, and has moved none when it fails. It is exactly when the transport
delivers the response to every request that moved XNO.
-/

namespace Obscura.Swapd

open Wire Lossy

/-! ## The ledger -/

/-- The functions of Nano and of package `swapd` that the lock only calls. -/
structure Nano (Scalar : Type) where
  blake2b256 : Bytes → Bytes
  blake2b256_length : ∀ bytes, (blake2b256 bytes).length = 32
  blake2b40 : Bytes → Bytes
  blake2b40_length : ∀ bytes, (blake2b40 bytes).length = 5
  /-- `ScalarBaseMult(secret).Bytes()`. -/
  pubOf : Scalar → Bytes
  nanoSign : Scalar → Bytes → Bytes
  nanoVerify : (account hash signature : Bytes) → Bool
  /-- Work that meets a difficulty, and what meets it. -/
  work : (root difficulty : Bytes) → Bytes
  workMeets : (root work : Bytes) → Bool
  /-- Whether a node wallet holds the key of an account. -/
  walletHolds : (wallet account : Bytes) → Bool

/-- An account of the ledger. -/
structure Account where
  frontier : Bytes
  representative : Bytes
  balance : Nat
deriving DecidableEq

/-- A send that its destination has not received. -/
structure Pending where
  hash : Bytes
  destination : Bytes
  amount : Nat
deriving DecidableEq

/-- The ledger of the network, with the blocks that it has taken. -/
structure Ledger where
  accounts : OrdMap Bytes Account := ∅
  pending : List Pending := []
  blocks : List Bytes := []

/-- XNO that a block sends out of an account. -/
structure Move where
  source : Bytes
  destination : Bytes
  amount : Nat
deriving DecidableEq

/-- A block: the state of an account after it. -/
structure StateBlock where
  account : Bytes
  previous : Bytes
  representative : Bytes
  balance : Nat
  link : Bytes
  signature : Bytes := []
  work : Bytes := []
deriving DecidableEq

/-- Whether a block sends or receives. -/
inductive Subtype
  | send
  | receive
deriving DecidableEq

/-- What a client asks a node. -/
inductive Request
  | accountInfo (account : Bytes)
  | receivable (account : Bytes)
  | workGenerate (hash difficulty : Bytes)
  | process (block : StateBlock) (subtype : Subtype)
  | send (wallet source destination : Bytes) (amount : Nat)
deriving DecidableEq

/-- What a node answers. -/
inductive Answer
  | info (frontier representative : Bytes) (balance : Nat)
  | blocks (receivable : List (Bytes × Nat))
  | work (work : Bytes)
  | processed (hash : Bytes)
  | sent (block : Bytes)
deriving DecidableEq

/-- No block, and no link. -/
def zeroHash : Bytes := List.replicate 32 0

section Handling

variable {Scalar : Type} (N : Nano Scalar)

/-- `nanoStateHash`: preamble, account, previous, representative, balance and link. -/
def nanoStateHash (account previous representative : Bytes) (balance : Nat) (link : Bytes) :
    Bytes :=
  N.blake2b256 (List.replicate 31 0 ++ [6] ++ account ++ previous ++ representative ++
    bigEndian 16 balance ++ link)

/-- The hash that names a block. -/
def StateBlock.hash (block : StateBlock) : Bytes :=
  nanoStateHash N block.account block.previous block.representative block.balance block.link

/-- An account after a block that sends. -/
def Ledger.pay (ledger : Ledger) (hash : Bytes) (block : StateBlock) (acc : Account) :
    Ledger × List Move :=
  let amount := acc.balance - block.balance
  ({ accounts := ledger.accounts.insert block.account
        ⟨hash, nanoAddress N.blake2b40 block.representative, block.balance⟩
     pending := ledger.pending ++ [⟨hash, block.link, amount⟩]
     blocks := hash :: ledger.blocks },
    [⟨block.account, block.link, amount⟩])

/-- An account after a block that receives, if the send it names is pending. -/
def Ledger.collect (ledger : Ledger) (hash : Bytes) (block : StateBlock) (amount : Nat) :
    Except String (Ledger × List Move) :=
  if ⟨block.link, block.account, amount⟩ ∈ ledger.pending then
    .ok ({ accounts := ledger.accounts.insert block.account
             ⟨hash, nanoAddress N.blake2b40 block.representative, block.balance⟩
           pending := ledger.pending.erase ⟨block.link, block.account, amount⟩
           blocks := hash :: ledger.blocks }, [])
  else
    .error "Unreceivable"

/-- The ledger's rules for a state block. -/
def Ledger.process (ledger : Ledger) (block : StateBlock) :
    Except String (Ledger × List Move) :=
  let hash := block.hash N
  let root := if block.previous = zeroHash then block.account else block.previous
  if !N.nanoVerify block.account hash block.signature then
    .error "Bad signature"
  else if !N.workMeets root block.work then
    .error "Block work is less than threshold"
  else if hash ∈ ledger.blocks then
    .error "Old block"
  else
    match ledger.accounts[block.account]? with
    | none =>
      if block.previous ≠ zeroHash then .error "Gap previous block"
      else ledger.collect N hash block block.balance
    | some acc =>
      -- A block without a previous one would open the account a second time.
      if block.previous = zeroHash ∨ block.previous ≠ acc.frontier then
        .error "Fork"
      else if block.balance < acc.balance then
        .ok (ledger.pay N hash block acc)
      else if acc.balance < block.balance then
        ledger.collect N hash block (block.balance - acc.balance)
      else
        .error "Balance and amount delta don't match"

/-- The `send` of a node wallet, which builds and signs the block itself. -/
def Ledger.walletSend (ledger : Ledger) (wallet source destination : Bytes) (amount : Nat) :
    Except String (Bytes × Ledger × List Move) := do
  let account ← decodeNanoAddress N.blake2b40 source
  let link ← decodeNanoAddress N.blake2b40 destination
  if !N.walletHolds wallet account then
    throw "Account not found in wallet"
  else
    match ledger.accounts[account]? with
    | none => throw "Account not found"
    | some acc =>
      if amount = 0 ∨ acc.balance < amount then
        throw "Insufficient balance"
      else
        let representative ← decodeNanoAddress N.blake2b40 acc.representative
        let block : StateBlock :=
          { account, previous := acc.frontier, representative, balance := acc.balance - amount
            link }
        let (next, moves) := ledger.pay N (block.hash N) block acc
        pure (block.hash N, next, moves)

/-- The answer to a request that arrives, or the refusal. -/
def Ledger.handle (ledger : Ledger) : Request → Except String (Answer × Ledger × List Move)
  | .accountInfo address => do
    let account ← decodeNanoAddress N.blake2b40 address
    match ledger.accounts[account]? with
    | none => throw "Account not found"
    | some acc => pure (.info acc.frontier acc.representative acc.balance, ledger, [])
  | .receivable address => do
    let account ← decodeNanoAddress N.blake2b40 address
    let listed := (ledger.pending.filter fun p => p.destination = account ∧ 1 ≤ p.amount).take 10
    pure (.blocks (listed.map fun p => (p.hash, p.amount)), ledger, [])
  | .workGenerate hash difficulty => pure (.work (N.work hash difficulty), ledger, [])
  | .process block _ => do
    let (next, moves) ← ledger.process N block
    pure (.processed (block.hash N), next, moves)
  | .send wallet source destination amount => do
    let (hash, next, moves) ← ledger.walletSend N wallet source destination amount
    pure (.sent hash, next, moves)

/-- The node as a service. -/
def service : Service Ledger Request Answer Move := ⟨Ledger.handle N⟩

end Handling

/-! ## The client -/

/-- `NanoRPC`: the node's addresses, and what the client signs with. -/
structure NanoRPC (Scalar : Type) where
  url : String
  fallbacks : List String := []
  walletID : Bytes := []
  source : Bytes := []
  workURL : String
  fundSecret : Option Scalar := none

/-- The calls of a client. -/
abbrev RPC := Client Ledger Move

section Client

variable {Scalar : Type} (N : Nano Scalar) (n : NanoRPC Scalar) (fates : Nat → Fate)

/-- The requested endpoint and, for the primary one, its fallbacks. -/
def endpoints (url : String) : List String :=
  url :: if url = n.url then n.fallbacks else []

/-- Three attempts at every endpoint; an error envelope is an answer. -/
def call (url : String) (request : Request) : RPC Answer :=
  Lossy.call (service N) fates ("swapd: nano rpc error: " ++ ·) "swapd: nano rpc transport error"
    (3 * (endpoints n url).length) request

/-- The work that a send is to show. -/
def nanoSendDifficulty : Bytes := ascii "fffffff800000000"

/-- The work that a receive is to show. -/
def nanoReceiveDifficulty : Bytes := ascii "fffffe0000000000"

/-- The representative of a new account. -/
def defaultNanoRep : Bytes :=
  ascii "nano_3arg3asgtigae3xckabaaewkx3bzsh7nwz7jkmjos79ihyaxwphhm6qgjps4"

/-- `generateWork`. -/
def generateWork (root : Bytes) (subtype : Subtype) : RPC Bytes := do
  let difficulty := if subtype = .send then nanoSendDifficulty else nanoReceiveDifficulty
  match ← call N n fates n.workURL (.workGenerate root difficulty) with
  | .work [] => .fail "swapd: work_generate returned nothing"
  | .work work => pure work
  | _ => .fail "swapd: work_generate returned nothing"

/-- Build, sign, work and process one state block. -/
def publishState (accountPub previous repAddr : Bytes) (balance : Nat) (link : Bytes)
    (secret : Scalar) (opened : Bool) (subtype : Subtype) : RPC Bytes := do
  let representative ← .ofExcept (decodeNanoAddress N.blake2b40 repAddr)
  if previous.length ≠ 32 then
    .fail "swapd: bad previous hash"
  else if link.length ≠ 32 then
    .fail "swapd: bad link"
  else if 2 ^ 128 ≤ balance then
    .fail "swapd: nano balance exceeds 128 bits"
  else
    let hash := nanoStateHash N accountPub previous representative balance link
    let signature := N.nanoSign secret hash
    let work ← generateWork N n fates (if opened then accountPub else previous) subtype
    let block : StateBlock :=
      { account := accountPub, previous, representative, balance, link, signature, work }
    match ← call N n fates n.url (.process block subtype) with
    | .processed [] => .fail "swapd: process returned no hash"
    | .processed hash => pure hash
    | _ => .fail "swapd: process returned no hash"

/-- The largest receivable block of an account. -/
def receivable (account : Bytes) : RPC (Option (Bytes × Nat)) := do
  match ← (call N n fates n.url (.receivable account)).outcome with
  | .ok (.blocks listed) =>
    pure (listed.foldl (fun best entry =>
      if (best.map Prod.snd).getD 0 < entry.2 then some entry else best) none)
  | _ => pure none

/-- Receive pending blocks until the balance covers the amount. Every round receives
one of the pending blocks, so their number bounds the rounds. -/
def receiveUntil (fromPub fromAddr rep : Bytes) (secret : Scalar) (amount : Nat) :
    (rounds : Nat) → (prev : Bytes) → (bal : Nat) → RPC (Bytes × Nat)
  | 0, prev, bal => pure (prev, bal)
  | rounds + 1, prev, bal =>
    if amount ≤ bal then
      pure (prev, bal)
    else do
      match ← receivable N n fates fromAddr with
      | none => pure (prev, bal)
      | some (hash, amt) =>
        let h ← (publishState N n fates fromPub prev rep (bal + amt) hash secret
          (prev = zeroHash) .receive).within "swapd: lock receive: "
        receiveUntil fromPub fromAddr rep secret amount rounds h (bal + amt)

/-- The frontier, the representative and the balance in an answer to `account_info`. An account
that cannot be read counts as one that is not opened. -/
def accountState : Except String Answer → Bytes × Bytes × Nat
  | .ok (.info frontier representative balance) => (frontier, representative, balance)
  | _ => ([], [], 0)

/-- The lock with the funding key. -/
def lockLocalKey (secret : Scalar) (amount : Nat) (accountPub : Bytes) : RPC Bytes := do
  if accountPub.length ≠ 32 then
    .fail "swapd: bad nano account pubkey"
  else if 2 ^ 128 ≤ amount then
    .fail "swapd: nano lock amount exceeds 128 bits"
  else
    let fromPub := N.pubOf secret
    let fromAddr ← .ofExcept (encodeNanoAddress N.blake2b40 fromPub)
    let destAddr ← .ofExcept (encodeNanoAddress N.blake2b40 accountPub)
    let destPub ← .ofExcept (decodeNanoAddress N.blake2b40 destAddr)
    let info ← (call N n fates n.url (.accountInfo fromAddr)).outcome
    let (frontier, representative, balance) := accountState info
    let prev := if frontier = [] then zeroHash else frontier
    let rep := if representative = [] then defaultNanoRep else representative
    let (prev, bal) ← ⟨fun w => (receiveUntil N n fates fromPub fromAddr rep secret amount
      (w.state.pending.length + 1) prev balance).run w⟩
    if bal < amount then
      .fail "swapd: insufficient funding balance"
    else
      let lockID ← (publishState N n fates fromPub prev rep (bal - amount) destPub secret false
        .send).within "swapd: lock send: "
      if lockID = [] then .fail "swapd: nano lock send returned no block hash" else pure lockID

/-- `Lock`: the id of the block that sends `amount` to the joint account. -/
def lock (amount : Option Int) (accountPub : Bytes) : RPC Bytes :=
  match amount with
  | none => .fail "swapd: nano lock amount must be non-negative"
  | some amount =>
    if amount < 0 then
      .fail "swapd: nano lock amount must be non-negative"
    else
      match n.walletID, n.fundSecret with
      | [], some secret => lockLocalKey N n fates secret amount.toNat accountPub
      | [], none => .fail "swapd: Lock needs a funding wallet+source OR a local funding secret"
      | wallet, _ =>
        if n.source = [] then
          .fail "swapd: Lock needs a funding wallet+source OR a local funding secret"
        else do
          let dest ← .ofExcept (encodeNanoAddress N.blake2b40 accountPub)
          match ← call N n fates n.url (.send wallet n.source dest amount.toNat) with
          | .sent [] => .fail "swapd: nano send returned no block hash"
          | .sent block => pure block
          | _ => .fail "swapd: nano send returned no block hash"

end Client

end Obscura.Swapd
