import Mathlib.Data.List.DropRight
import Mathlib.Data.List.Sort
import Obscura.Primitives
import Obscura.Store
import Obscura.Swapbook.Rate

/-! # The swap order book

Signed offers, the book of live offers, and the sidecar that tracks how much of each
offer is still fillable: adding and cancelling offers, reserving liquidity across
rungs, releasing reservations and committing trades. The book's mutex makes every
call atomic. A call takes the clock values it reads as arguments, one for each read.
-/

namespace Obscura.Swapbook

open Wire

/-- The leading zero bits of an offer's hash. -/
def offerPoWBits : Nat := 12
/-- Six hours, in seconds. -/
def maxOfferTTL : Int := 6 * 60 * 60

/-- The most offers of a book. -/
def maxBookSize : Nat := 50000

/-- The longest name of an asset. -/
def maxAssetLen : Nat := 16

/-- The most offers of one maker. -/
def maxOffersPerMaker : Nat := 64

/-- The most trades that the tape keeps. -/
def tradeTapeCap : Nat := 5000

/-- The allowlist `SettleableAssets`. -/
def settleableAssets : List Bytes := [ascii "OBX", ascii "XNO"]

/-- The table `MinOrderSize`. -/
def minOrderSize : List (Bytes × UInt64) := [(ascii "OBX", 1), (ascii "XNO", 1)]

/-- The smallest order in an asset without a minimum of its own. -/
def minOrderSizeDefault : UInt64 := 1

/-- `MinOrderSizeFor`. -/
def minOrderSizeFor (asset : Bytes) : UInt64 :=
  (minOrderSize.lookup asset).getD minOrderSizeDefault

/-- An allowed character of an asset ticker. -/
def assetByte (c : UInt8) : Bool :=
  ('A'.toNat ≤ c.toNat && c.toNat ≤ 'Z'.toNat) || ('a'.toNat ≤ c.toNat && c.toNat ≤ 'z'.toNat) ||
    ('0'.toNat ≤ c.toNat && c.toNat ≤ '9'.toNat) || c.toNat == '-'.toNat || c.toNat == '.'.toNat

/-- `validAsset`. -/
def validAsset (s : Bytes) : Bool :=
  0 < s.length && s.length ≤ maxAssetLen && s.all assetByte

/-- An offer as it is posted and signed. -/
structure Offer where
  maker : Bytes
  giveAsset : Bytes
  getAsset : Bytes
  giveAmount : UInt64
  getAmount : UInt64
  /-- Unix seconds. -/
  expiry : Int
  nonce : UInt64
  sig : Bytes
deriving DecidableEq

/-- A byte string behind its four-byte length. -/
def putB (p : Bytes) : Bytes := bigEndian 4 p.length ++ p

/-- The signed and hashed bytes. -/
def Offer.core (o : Offer) : Bytes :=
  putB o.maker ++ putB o.giveAsset ++ putB o.getAsset ++ bigEndian 8 o.giveAmount.toNat ++
    bigEndian 8 o.getAmount.toNat ++ bigEndian 8 (o.expiry % 2 ^ 64).toNat ++
    bigEndian 8 o.nonce.toNat

variable (V : Primitives)

/-- `ID`: the hash of the signed part. -/
def Offer.id (o : Offer) : Hash := V.blake2b o.core

/-- The leading zero bits of a byte, counted from the top of `width` bits. -/
def zeroBits (b : UInt8) : (width : Nat) → Nat
  | 0 => 0
  | width + 1 => if b.toNat.testBit width then 0 else zeroBits b width + 1

/-- The zero bits in front of the first one. -/
def leadingZeroBits : Bytes → Nat
  | [] => 0
  | b :: rest => if b = 0 then 8 + leadingZeroBits rest else zeroBits b 8

/-- `Verify`: fields, time, minimum sizes, work and signature. -/
def Offer.verify (o : Offer) (now : Int) : Bool :=
  if o.maker.length ≠ 32 ∨ o.sig.length ≠ 64 then
    false
  else if o.giveAmount = 0 ∨ o.getAmount = 0 ∨ o.giveAsset = o.getAsset then
    false
  else if !validAsset o.giveAsset ∨ !validAsset o.getAsset then
    false
  else if o.giveAsset ∉ settleableAssets ∨ o.getAsset ∉ settleableAssets then
    false
  else if o.expiry ≤ now ∨ now + maxOfferTTL < o.expiry then
    false
  else if leadingZeroBits (o.id V) < offerPoWBits then
    false
  else
    match V.parseFullSig o.sig with
    | none => false
    | some sig => V.verifyFull o.maker o.core sig

/-! ## Fill state -/

/-- What a fill amounts to. -/
inductive Status where
  | opened
  | partly
  | filled
  | cancelled
deriving DecidableEq, Repr

/-- How much of an offer is left: `remGet` is what takers can still pay in, `remGve`
what they can still receive. -/
structure Fill where
  get : UInt64
  give : UInt64
  remGet : UInt64
  remGve : UInt64
  status : Status
deriving DecidableEq

/-- A part of an offer held for a swap. -/
structure Reservation where
  offerID : Hash
  maker : Bytes
  pay : UInt64
  recv : UInt64
deriving DecidableEq

/-- A trade on the tape. -/
structure Trade where
  pair : Bytes
  price : String
  give : UInt64
  get : UInt64
  maker : Bytes
  taker : String
  swapKey : String
  time : Int
deriving DecidableEq

/-- The book with its sidecar. -/
structure Book where
  offers : GoMap Offer := ∅
  fills : GoMap Fill := ∅
  trades : List Trade := []

/-- The fill state an offer starts with. -/
def Offer.fresh (o : Offer) : Fill where
  get := o.getAmount
  give := o.giveAmount
  remGet := o.getAmount
  remGve := o.giveAmount
  status := .opened

/-- The fill state of a live offer, created if absent. -/
def fillForLocked (fills : GoMap Fill) (id : Hash) (o : Offer) : Fill × GoMap Fill :=
  match fills[id]? with
  | some f => (f, fills)
  | none => (o.fresh, fills.insert id o.fresh)

/-- Give a slice back to its offer, at most up to the offer's full amounts. -/
def Fill.restore (f : Fill) (r : Reservation) : Fill :=
  let remGet := f.remGet + r.pay
  let remGet := if f.get < remGet then f.get else remGet
  let remGve := f.remGve + r.recv
  let remGve := if f.give < remGve then f.give else remGve
  let status :=
    if f.get ≤ remGet ∧ f.give ≤ remGve then .opened
    else if remGet = 0 ∨ remGve = 0 then .filled
    else .partly
  { f with remGet, remGve, status }

/-- `releaseLocked`: what was held is given back; an offer that is gone is passed over. -/
def releaseLocked (fills : GoMap Fill) : List Reservation → GoMap Fill
  | [] => fills
  | r :: res =>
    match fills[r.offerID]? with
    | none => releaseLocked fills res
    | some f => releaseLocked (fills.insert r.offerID (f.restore r)) res

namespace Book

variable (b : Book)

/-- `pruneLocked`: offers leave once their time is up. -/
def pruneLocked (now : Int) : Book :=
  { b with offers := b.offers.filter fun _ o => !decide (o.expiry ≤ now) }

/-- `countMakerLocked`: the offers of a maker. -/
def countMakerLocked (maker : Bytes) : Nat :=
  if maker.length ≠ 32 then 0
  else (b.offers.toList.filter fun entry => entry.2.maker.length = 32 ∧ entry.2.maker = maker).length

/-- `crossesLocked`: an opposite offer meets the rate. -/
def crossesLocked (o : Offer) : Bool :=
  b.offers.toList.any fun entry =>
    let opp := entry.2
    opp.giveAsset = o.getAsset && opp.getAsset = o.giveAsset && opp.giveAmount ≠ 0 &&
      opp.getAmount ≠ 0 &&
      cmpRate opp.giveAmount opp.getAmount o.getAmount o.giveAmount ≠ .lt

/-- `addLocked`: a new offer, or the reason against it. -/
def addLocked (now : Int) (o : Offer) (postOnly : Bool) : Except String Bool × Book :=
  let b := b.pruneLocked now
  if (b.offers[o.id V]?).isSome then
    (.ok false, b)
  else if maxBookSize ≤ b.offers.size then
    (.error "swapbook: full", b)
  else if maxOffersPerMaker ≤ b.countMakerLocked o.maker then
    (.error "swapbook: maker offer cap reached", b)
  else if postOnly && b.crossesLocked o then
    (.error "swapbook: post-only offer would cross top-of-book", b)
  else
    (.ok true, { b with offers := b.offers.insert (o.id V) o })

/-- `Add`, or `AddPostOnly` when `postOnly` is set. -/
def add (verifyNow now : Int) (o : Offer) (postOnly : Bool) : Except String Bool × Book :=
  if !o.verify V verifyNow then
    if o.giveAsset ∉ settleableAssets ∨ o.getAsset ∉ settleableAssets then
      (.error "swapbook: asset not settleable (BTC is disabled; see config.SettleableAssets)", b)
    else
      (.error "swapbook: invalid offer", b)
  else
    b.addLocked V now o postOnly

/-- Best taker rate first, then by identifier. -/
def ranksBefore (a c : Offer) : Bool :=
  match cmpRate a.giveAmount a.getAmount c.giveAmount c.getAmount with
  | .gt => true
  | .lt => false
  | .eq => a.id V < c.id V

/-- `matchingOffersLocked`: the offers of a side, best rate first. -/
def matchingOffersLocked (now : Int) (giveAsset getAsset : Bytes) : List Offer × Book :=
  let b := b.pruneLocked now
  let side := (b.offers.toList.map Prod.snd).filter fun o =>
    o.giveAsset = getAsset && o.getAsset = giveAsset && o.giveAmount ≠ 0 && o.getAmount ≠ 0
  (side.insertionSort fun a c => ¬ ranksBefore V c a, b)

/-- What a quote has added up. -/
structure Quoting where
  remaining : UInt64
  filled : UInt64 := 0
  getOut : UInt64 := 0
  offersUsed : Nat := 0

/-- The walk of `Quote` over a side. -/
def quoteWalk : List Offer → Quoting → Quoting
  | [], q => q
  | o :: side, q =>
    if q.remaining = 0 then
      q
    else
      let pay := if q.remaining < o.getAmount then q.remaining else o.getAmount
      if pay = 0 then
        quoteWalk side q
      else
        let got := mulDivFloor pay o.giveAmount o.getAmount
        if got = 0 then
          quoteWalk side q
        else
          quoteWalk side
            { remaining := q.remaining - pay, filled := q.filled + pay, getOut := q.getOut + got
              offersUsed := q.offersUsed + 1 }

/-- `Quote` without its floating-point rate: what is filled, what comes out, the offers used
and whether the whole size is filled. -/
def quote (now : Int) (giveAsset getAsset : Bytes) (giveSize : UInt64) :
    (UInt64 × UInt64 × Nat × Bool) × Book :=
  if giveSize = 0 ∨ !validAsset giveAsset ∨ !validAsset getAsset ∨ giveAsset = getAsset then
    ((0, 0, 0, false), b)
  else
    let (side, b) := b.matchingOffersLocked V now giveAsset getAsset
    let q := quoteWalk side { remaining := giveSize }
    ((q.filled, q.getOut, q.offersUsed, q.filled == giveSize), b)

/-- The options of a reservation. -/
structure ReserveOpts where
  takerPub : Bytes := []
  fok : Bool := false
  minFillRateNum : UInt64 := 0
  minFillRateDen : UInt64 := 0

/-- What a reserve walk has changed and collected. -/
structure Walk where
  fills : GoMap Fill
  res : List Reservation := []
  getOut : UInt64 := 0
  giveIn : UInt64 := 0
  remaining : UInt64

/-- Take a slice of an offer for the taker. -/
def Walk.take (walk : Walk) (id : Hash) (o : Offer) (f : Fill) (pay recv : UInt64) : Walk :=
  let remGet := f.remGet - pay
  let recv := if f.remGve < recv then f.remGve else recv
  let remGve := f.remGve - recv
  let status := if remGet = 0 ∨ remGve = 0 then .filled else .partly
  { fills := walk.fills.insert id { f with remGet, remGve, status }
    res := walk.res ++ [{ offerID := id, maker := o.maker, pay, recv }]
    getOut := walk.getOut + recv
    giveIn := walk.giveIn + pay
    remaining := walk.remaining - pay }

/-- One rung: the walk goes on with the rest of the side, or stops. -/
def reserveWalk (opts : ReserveOpts) : List Offer → Walk → Walk
  | [], walk => walk
  | o :: side, walk =>
    if walk.remaining = 0 then
      walk
    else if opts.takerPub.length = 32 ∧ o.maker.length = 32 ∧ o.maker = opts.takerPub then
      reserveWalk opts side walk
    else if opts.minFillRateDen ≠ 0 ∧ cmpRate o.giveAmount o.getAmount opts.minFillRateNum
        opts.minFillRateDen = .lt then
      walk
    else
      let (f, fills) := fillForLocked walk.fills (o.id V) o
      let walk := { walk with fills }
      if f.status = .filled ∨ f.status = .cancelled ∨ f.remGet = 0 then
        reserveWalk opts side walk
      else
        let pay := if walk.remaining < f.remGet then walk.remaining else f.remGet
        if pay = 0 then
          reserveWalk opts side walk
        else
          let recv := mulDivFloor pay o.giveAmount o.getAmount
          if recv = 0 then
            reserveWalk opts side walk
          else
            reserveWalk opts side (walk.take (o.id V) o f pay recv)

/-- The errors of a reservation. -/
inductive ReserveError where
  | noLiquidity
  | dust
  | fokUnfillable
deriving DecidableEq, Repr

/-- The request is refused before the book is locked. -/
def refuseReserve (giveAsset getAsset : Bytes) (size : UInt64) : Option ReserveError :=
  if size = 0 ∨ !validAsset giveAsset ∨ !validAsset getAsset ∨ giveAsset = getAsset then
    some .noLiquidity
  else if size < minOrderSizeFor giveAsset then
    some .dust
  else
    none

/-- The walk of a reserve call that is not refused, with the pruned book. -/
def walkFor (now now' : Int) (giveAsset getAsset : Bytes) (size : UInt64) (opts : ReserveOpts) :
    Book × Walk :=
  let (side, b) := (b.pruneLocked now).matchingOffersLocked V now' giveAsset getAsset
  (b, reserveWalk V opts side { fills := b.fills, remaining := size })

/-- Reserve up to `size` across rungs; a fill-or-kill request that cannot be filled is
rolled back. -/
def reserve (now now' : Int) (giveAsset getAsset : Bytes) (size : UInt64) (opts : ReserveOpts) :
    Except ReserveError (List Reservation × UInt64 × UInt64) × Book :=
  match refuseReserve giveAsset getAsset size with
  | some error => (.error error, b)
  | none =>
    let (b, walk) := b.walkFor V now now' giveAsset getAsset size opts
    if walk.res = [] then
      (.error .noLiquidity, { b with fills := walk.fills })
    else if opts.fok ∧ walk.giveIn < size then
      (.error .fokUnfillable, { b with fills := releaseLocked walk.fills walk.res })
    else
      (.ok (walk.res, walk.getOut, walk.giveIn), { b with fills := walk.fills })

/-- `ReleaseReservation`. -/
def releaseReservation (res : List Reservation) : Book :=
  { b with fills := releaseLocked b.fills res }

/-- The status of an offer one of whose slices was committed. -/
def Fill.confirm (f : Fill) : Fill :=
  if f.remGet = 0 ∨ f.remGve = 0 then
    { f with status := .filled }
  else if f.remGet < f.get ∨ f.remGve < f.give then
    { f with status := .partly }
  else
    f

/-- Every part held becomes a part filled. -/
def confirmAll (fills : GoMap Fill) : List Reservation → GoMap Fill
  | [] => fills
  | r :: res =>
    match fills[r.offerID]? with
    | none => confirmAll fills res
    | some f => confirmAll (fills.insert r.offerID (Fill.confirm f)) res

/-- Up to `count` fractional digits of `rem / den`. -/
def fractionDigits (den : UInt64) : (count : Nat) → (rem : UInt64) → List Char
  | 0, _ => []
  | count + 1, rem =>
    if rem = 0 then
      []
    else
      let rem := rem * 10
      Char.ofNat (('0'.toNat + (rem / den).toNat) % 256) :: fractionDigits den count (rem % den)

/-- `ratioString`: a rate with at most eighteen decimals. -/
def ratioString (num den : UInt64) : String :=
  if den = 0 then
    "0"
  else
    let out := toString (num / den)
    let rem := num % den
    if rem = 0 then
      out
    else
      out ++ "." ++ String.ofList ((fractionDigits den 18 rem).rdropWhile (· == '0'))

/-- The maker of a set of rungs in hexadecimal, empty if there are several. -/
def soleMaker (res : List Reservation) : Bytes :=
  let (maker, mixed) := res.foldl (fun (maker, mixed) r =>
    let mh := hexstr r.maker
    if maker = [] then (mh, mixed) else (maker, mixed || maker != mh)) (([] : Bytes), false)
  if mixed then [] else maker

/-- `CommitTrade`: the parts are confirmed and the trade is put on the tape. -/
def commitTrade (now : Int) (res : List Reservation) (giveAsset getAsset : Bytes)
    (swapKey takerPub : String) : Trade × Book :=
  let give := res.foldl (fun sum r => sum + r.pay) 0
  let get := res.foldl (fun sum r => sum + r.recv) 0
  let tr : Trade :=
    { pair := giveAsset ++ ascii "/" ++ getAsset, price := ratioString get give, give, get
      maker := soleMaker res, taker := takerPub, swapKey, time := now }
  let trades := b.trades ++ [tr]
  (tr, { b with
    fills := confirmAll b.fills res
    trades := trades.drop (trades.length - tradeTapeCap) })

/-- What the maker signs to withdraw an offer. -/
def cancelMessage (offerID : Hash) : Bytes :=
  V.blake2b (ascii "obscura/swapbook/cancel/v1" ++ offerID)

/-- `Cancel`: the maker's signature takes the offer off the book. -/
def cancel (now : Int) (offerID : Hash) (sig : Bytes) : Except String Unit × Book :=
  if sig.length ≠ 64 then
    (.error "swapbook: bad cancel signature length", b)
  else
    let b := b.pruneLocked now
    match b.offers[offerID]? with
    | none => (.error "swapbook: offer not found", b)
    | some o =>
      match V.parseFullSig sig with
      | none => (.error "swapbook: malformed cancel signature", b)
      | some fullSig =>
        if !V.verifyFull o.maker (cancelMessage V offerID) fullSig then
          (.error "swapbook: cancel signature does not match maker", b)
        else
          (.ok (), { b with offers := b.offers.erase offerID })

/-- `PruneExpired`: the number of offers dropped. -/
def pruneExpired (now : Int) : Nat × Book :=
  (b.offers.size - (b.pruneLocked now).offers.size, b.pruneLocked now)

/-- The fill state of a live offer, which the call creates if it is missing. -/
def offerFill (now : Int) (id : Hash) : Option (UInt64 × UInt64 × Status) × Book :=
  let b := b.pruneLocked now
  match b.offers[id]? with
  | none => (none, b)
  | some o =>
    let (f, fills) := fillForLocked b.fills id o
    (some (f.remGve, f.remGet, f.status), { b with fills })

end Book

end Obscura.Swapbook
