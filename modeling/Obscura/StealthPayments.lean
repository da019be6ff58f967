import Obscura.Commit.PaymentProof
import Obscura.WalletReceipts

/-! # Stealth payments

What a sender makes for an address, and what the wallet behind the address does with it. The
sender works from the transaction secret and the address, the wallet from its view secret and
the transaction key. The scan tries the main keys and those of every enabled subaddress and goes
on with the first that match; the receipt of an output it recorded is made with the main keys.
-/

namespace Obscura.Payment

open Wire Tx Wallet Checked ChaumPedersen Numerals

variable {L : Nat} {M : Type} [Fact L.Prime] [AddCommGroup M] [Module (ZMod L) M]
  (V : Primitives) (S : Suite L M)

/-! ## Keys -/

/-- `NewStealthKeys` and `StealthKeysFromSeed`; the two secrets are arguments. -/
def stealthKeys (a b : ZMod L) : StealthKeys M (ZMod L) :=
  let nsk := deriveNfSecret S.curve b
  { a, b := some b, nsk, spendKey := b • S.basePoint, nfPk := nfAddress V nsk }

/-- `StealthKeysFromViewKey`, its parts decoded. -/
def stealthKeysFromViewKey (a : ZMod L) (B : M) (nfPk : Bytes) : StealthKeys M (ZMod L) :=
  { a, b := none, nsk := 0, spendKey := B, nfPk }

/-- A key pair as one of the constructors makes it. -/
inductive Built : StealthKeys M (ZMod L) → Prop
  | spending (a b : ZMod L) : Built (stealthKeys V S a b)
  | watching (a : ZMod L) (B : M) (nfPk : Bytes) : Built (stealthKeysFromViewKey a B nfPk)

theorem Built.spendKey_eq {k : StealthKeys M (ZMod L)} (built : Built V S k) {b : ZMod L}
    (spending : k.b = some b) : k.spendKey = b • S.basePoint := by
  cases built with
  | spending a b =>
    cases spending
    rfl
  | watching => exact nomatch spending

theorem Built.subaddress {k : StealthKeys M (ZMod L)} (built : Built V S k) (index : Nat) :
    Built V S (k.subaddress V S.curve index) := by
  cases built with
  | spending a b =>
    simp only [StealthKeys.subaddress, stealthKeys]
    split_ifs
    · exact Built.spending a b
    · exact Built.spending _ _
  | watching a B nfPk => exact Built.watching a B nfPk

theorem isViewOnly_subaddress (k : StealthKeys M (ZMod L)) (index : Nat) :
    (k.subaddress V S.curve index).isViewOnly = k.isViewOnly := by
  obtain ⟨a, _ | b, nsk, spendKey, nfPk⟩ := k
  · rfl
  · simp only [StealthKeys.subaddress, StealthKeys.isViewOnly]
    split_ifs <;> rfl

theorem subaddress_succ (a b : ZMod L) (i : Nat) :
    (stealthKeys V S a b).subaddress V S.curve (i + 1) =
      stealthKeys V S
        (S.hashToScalar (ascii "Obscura/sub-view") [S.scalarBytes a, bigEndian 4 (i + 1)])
        (S.hashToScalar (ascii "Obscura/sub-spend") [S.scalarBytes b, bigEndian 4 (i + 1)]) :=
  rfl

theorem subaddress_zero (k : StealthKeys M (ZMod L)) : k.subaddress V S.curve 0 = k := by
  obtain ⟨a, _ | b, nsk, spendKey, nfPk⟩ := k <;> rfl

theorem mem_subKeys (w : Wallet M (ZMod L)) {index : Nat} (enabled : index ≤ w.subCount) :
    w.keys.subaddress V S.curve index ∈ w.subKeys V S.curve := by
  cases index with
  | zero =>
    rw [subaddress_zero]
    exact List.mem_cons_self
  | succ i => exact List.mem_cons_of_mem _ (List.mem_map_of_mem (List.mem_range.mpr enabled))

/-! ## The sender -/

/-- `CreateOutputDeterministic`. -/
def createOutput (dest : StealthAddress M) (r : ZMod L) : StealthOutput M :=
  ⟨derivedKey S dest (r • dest.A), r • S.basePoint⟩

/-- The view tag of an output to an address. -/
def sentTag (dest : StealthAddress M) (r : ZMod L) : UInt8 :=
  StealthKeys.viewTag S.curve (S.pointBytes (r • dest.A))

/-- The mint of `CreateZKMintTo`. -/
def zkMint (dest : StealthAddress M) (mintAmount : UInt64) (r : ZMod L) (mintProof : Bytes) :
    ZKOutput :=
  let so := createOutput S dest r
  let (rho, blind) := zkSecretsFromShared V (S.pointBytes (r • dest.A))
  { leaf := nfNoteFromPk V (nodeFromBytes dest.nfPk) (newFelt mintAmount) rho blind
    amount := mintAmount
    mintProof
    key := S.pointBytes so.P
    txPubKey := S.pointBytes so.R
    viewTag := sentTag S dest r }

/-- `czkAmountMask`: eight bytes of the shared secret's hash. -/
def czkAmountMask (shared : Bytes) : Bytes :=
  (V.blake2b (ascii "OBX/zk/czk-amt" ++ shared)).take 8

/-- A word under a mask, lowest byte first. -/
def xorU64LE (v : UInt64) (mask : Bytes) : Bytes :=
  List.zipWith (· ^^^ ·) (wU64 v).reverse mask

/-- The spend of `CreateCZKSpend`; what it takes from the spent coin is an argument. -/
def czkSpend (dest : StealthAddress M) (aOut fee : UInt64) (r : ZMod L)
    (nullifier anchor proof : Bytes) : CZKSpend :=
  let so := createOutput S dest r
  let shared := S.pointBytes (r • dest.A)
  let (rhoOut, blindOut) := zkSecretsFromShared V shared
  { nullifier, anchor, fee, proof
    leafOut := nfNoteFromPk V (nodeFromBytes dest.nfPk) (newFelt aOut) rhoOut blindOut
    key := S.pointBytes so.P
    txPubKey := S.pointBytes so.R
    viewTag := sentTag S dest r
    encAmount := xorU64LE aOut (czkAmountMask V shared) }

/-! ## The recipient -/

/-- The receipt of a recorded output, with the main keys. -/
def provePaymentBundle (nonce : ZMod L) (w : Wallet M (ZMod L)) (o : OwnedOutput (ZMod L)) :
    Except String (ReceiptBundle L M) := do
  reject (o.out.txPubKey.length ≠ 32) "wallet: output lacks tx pubkey (rescan to prove)"
  let P ← pointFromBytes S o.out.oneTimeKey
  let R ← pointFromBytes S o.out.txPubKey
  let so : StealthOutput M := ⟨P, R⟩
  pure ⟨so, o.out.encAmount, proveReceipt S nonce w.keys.a so o.out.encAmount⟩

variable [DecidableEq M]

/-- The scan over some keys finds an output paid to one of them under that key. -/
def Finds (keys : List (StealthKeys M (ZMod L))) (r : ZMod L) (k : StealthKeys M (ZMod L)) :
    Prop :=
  keys.find? (fun k' => k'.scanMatch S.curve (createOutput S (address S k) r)
    (sentTag S (address S k) r)) = some k

/-- No other key matches an output paid to `k`. -/
def Apart (keys : List (StealthKeys M (ZMod L))) (r : ZMod L) (k : StealthKeys M (ZMod L)) :
    Prop :=
  ∀ k' ∈ keys, k'.scanMatch S.curve (createOutput S (address S k) r)
    (sentTag S (address S k) r) = true → k' = k

section Agreement

variable {V} {S} {keys : List (StealthKeys M (ZMod L))} {k : StealthKeys M (ZMod L)} {r : ZMod L}

omit [DecidableEq M] in
theorem sharedSecret_createOutput :
    k.sharedSecret S.curve (createOutput S (address S k) r) =
      S.pointBytes (r • (address S k).A) :=
  congrArg S.pointBytes (smul_comm k.a r S.basePoint)

theorem owns_createOutput : k.owns S.curve (createOutput S (address S k) r) = true :=
  owns_iff.mpr (congrArg (derivedKey S (address S k)) (smul_comm k.a r S.basePoint))

theorem scanMatch_createOutput :
    k.scanMatch S.curve (createOutput S (address S k) r) (sentTag S (address S k) r) = true := by
  have owns := owns_createOutput (S := S) (k := k) (r := r)
  simp only [StealthKeys.owns, sharedSecret_createOutput] at owns
  simp only [StealthKeys.scanMatch, sharedSecret_createOutput, sentTag, ne_eq, not_true,
    ↓reduceIte]
  exact owns

theorem finds_head : Finds S (k :: keys) r k :=
  List.find?_cons_of_pos scanMatch_createOutput

theorem finds_of_apart (member : k ∈ keys) (apart : Apart S keys r k) : Finds S keys r k := by
  cases found : keys.find? (fun k' => k'.scanMatch S.curve (createOutput S (address S k) r)
      (sentTag S (address S k) r)) with
  | none =>
    have missed := List.find?_eq_none.mp found k member
    exact absurd scanMatch_createOutput missed
  | some k' =>
    have matched := @List.find?_some _ (fun k' : StealthKeys M (ZMod L) =>
      k'.scanMatch S.curve (createOutput S (address S k) r) (sentTag S (address S k) r)) _ _ found
    have same := apart k' (List.mem_of_find?_eq_some found) matched
    rw [Finds, found, same]

theorem Finds.owner_eq (finds : Finds S keys r k) :
    owner S.curve keys (S.pointBytes (createOutput S (address S k) r).P)
      (S.pointBytes (createOutput S (address S k) r).R) (sentTag S (address S k) r) =
        some (k, createOutput S (address S k) r) := by
  have point (P : M) : S.curve.pointSetBytes (S.pointBytes P) = some P :=
    S.pointSetBytes_pointBytes P
  simp only [owner, point, Option.bind_eq_bind, Option.bind_some]
  rw [Finds] at finds
  rw [finds]
  rfl

end Agreement

/-! ## What the wallet keeps -/

/-- What the sender of an output chooses. -/
structure Sending (L : Nat) where
  r : ZMod L
  amount : UInt64
  blinding : ZMod L
  lockUntil : UInt64 := 0
  rangeProof : Bytes := []
  primeNonce : UInt64 := 0

/-- `buildOutputR`. -/
def Sending.output (s : Sending L) (dest : StealthAddress M) : Output :=
  buildOutput S dest s.amount s.lockUntil s.r s.blinding s.rangeProof s.primeNonce

/-- The one-time secret of a key pair for an output paid to it. -/
def spendSecret (k : StealthKeys M (ZMod L)) (r : ZMod L) : Option (ZMod L) :=
  k.b.map fun b =>
    S.hashToScalar (ascii "Obscura/stealth") [S.pointBytes (r • (address S k).A)] + b

/-- A coin paid to a key pair: the sender's secrets and the owner's nullifier secret. -/
def paidCoin (k : StealthKeys M (ZMod L)) (s : Sending L) (leaf : Bytes) : ZKCoin :=
  let (rho, blind) := zkSecretsFromShared V (S.pointBytes (s.r • (address S k).A))
  { amount := s.amount, rho, blind, nsk := k.nsk, leaf }

/-- Widths and encodings of the hash functions of the notes. -/
structure Digests (V : Primitives) : Prop where
  blake2b : ∀ bytes, (V.blake2b bytes).length = 32
  wideHash2 : ∀ left right, (parseNode (V.wideHash2 left right)).isSome = true

section Kept

variable {V} {S} {keys : List (StealthKeys M (ZMod L))} {k : StealthKeys M (ZMod L)}
variable {s : Sending L} {height : Nat} {isCoinbase : Bool} {sourceTx : Hash}
variable {held : List (OwnedOutput (ZMod L))}

omit [DecidableEq M] in
theorem spendSecret_smul (built : Built V S k) {x : ZMod L}
    (secret : spendSecret S k s.r = some x) :
    x • S.basePoint = (createOutput S (address S k) s.r).P := by
  obtain ⟨b, spending, rfl⟩ := Option.map_eq_some_iff.mp secret
  rw [add_smul, ← built.spendKey_eq V S spending]
  rfl

theorem oneTimeSecret_createOutput {b : ZMod L} (spending : k.b = some b) :
    k.oneTimeSecret S.curve (createOutput S (address S k) s.r) =
      .ok (S.hashToScalar (ascii "Obscura/stealth") [S.pointBytes (s.r • (address S k).A)] +
        b) := by
  unfold StealthKeys.oneTimeSecret
  rw [spending]
  simp only [owns_createOutput, sharedSecret_createOutput, Bool.not_true, Bool.false_eq_true,
    ↓reduceIte]
  rfl

/-- The wallet records what the sender put in. -/
theorem claimed_output (finds : Finds S keys s.r k)
    (fresh : S.pointBytes (createOutput S (address S k) s.r).P ∉
      held.map fun ex => ex.out.oneTimeKey) :
    claimed S.curve keys height isCoinbase sourceTx held (s.output S (address S k)) =
      some { out := s.output S (address S k), amount := s.amount, mask := s.blinding
             oneTime := spendSecret S k s.r, height, isCoinbase, sourceTx } := by
  have widths : ¬ ((s.output S (address S k)).oneTimeKey.length ≠ 32 ∨
      (s.output S (address S k)).txPubKey.length ≠ 32 ∨
      (s.output S (address S k)).commitment.length ≠ 32) := by
    simp [Sending.output, buildOutput, Suite.curve, S.length_pointBytes]
  have owned : owner S.curve keys (s.output S (address S k)).oneTimeKey
      (s.output S (address S k)).txPubKey (s.output S (address S k)).viewTag =
        some (k, createOutput S (address S k) s.r) := finds.owner_eq
  have amount : decryptAmount S.curve (S.pointBytes (s.r • (address S k).A))
      (s.output S (address S k)).encAmount = s.amount := decryptAmount_encryptAmount S _ _
  have mask : decryptScalar S.curve (S.pointBytes (s.r • (address S k).A))
      (s.output S (address S k)).encMask = some s.blinding := by
    rw [decryptScalar, Sending.output, buildOutput, encryptBytes_twice]
    exact S.scalarSetBytes_scalarBytes s.blinding
  have commitment : ¬ S.curve.commit s.amount s.blinding ≠
      (s.output S (address S k)).commitment := not_not.mpr rfl
  unfold claimed
  rw [if_neg widths, owned]
  simp only [Option.bind_eq_bind, Option.bind_some]
  rw [if_neg (by exact fresh), sharedSecret_createOutput, mask, amount]
  simp only [Option.bind_some]
  rw [if_neg commitment]
  cases spending : k.b with
  | none =>
    rw [if_pos (by rw [StealthKeys.isViewOnly, spending]; rfl), spendSecret, spending]
    rfl
  | some b =>
    rw [if_neg (by rw [StealthKeys.isViewOnly, spending]; exact Bool.false_ne_true),
      oneTimeSecret_createOutput spending, spendSecret, spending]
    rfl

theorem tryClaim_recorded (known : S.pointBytes (createOutput S (address S k) s.r).P ∈
      held.map fun ex => ex.out.oneTimeKey) :
    tryClaim S.curve keys height isCoinbase sourceTx held (s.output S (address S k)) = held := by
  have skipped : claimed S.curve keys height isCoinbase sourceTx held
      (s.output S (address S k)) = none := by
    unfold claimed
    split_ifs with ill fresh
    · rfl
    · exact Option.bind_eq_none_iff.mpr fun _ _ => rfl
    · exact absurd known fresh
  rw [tryClaim, skipped, Option.toList_none, List.append_nil]

omit [DecidableEq M] in
/-- The mask is taken off again. -/
theorem unmask_xorU64LE (digests : Digests V) (shared : Bytes) (v : UInt64) :
    unmaskAmount V shared (xorU64LE v (czkAmountMask V shared)) = some v := by
  have wide : (wU64 v).reverse.length = 8 := by
    rw [List.length_reverse]
    exact length_bigEndian 8 _
  have mask : (czkAmountMask V shared).length = 8 := by
    rw [czkAmountMask, List.length_take, digests.blake2b]
    rfl
  have width : (xorU64LE v (czkAmountMask V shared)).length = 8 := by
    rw [xorU64LE, List.length_zipWith, wide, mask]
    rfl
  have back := zipWith_xor_twice (wide.trans mask.symm).le
  rw [unmaskAmount, if_neg (not_not.mpr width)]
  exact congrArg some ((congrArg littleEndian64 back).trans (littleEndian64_wU64 v))

/-- The recipient claims the coin of a mint. -/
theorem mintedCoin_zkMint (digests : Digests V) (finds : Finds S keys s.r k)
    (mintProof : Bytes) :
    mintedCoin V S.curve keys (zkMint V S (address S k) s.amount s.r mintProof) =
      some (paidCoin V S k s (zkMint V S (address S k) s.amount s.r mintProof).leaf) := by
  have canonical : (parseNode (zkMint V S (address S k) s.amount s.r mintProof).leaf).isSome =
      true := digests.wideHash2 _ _
  have owned : owner S.curve keys (zkMint V S (address S k) s.amount s.r mintProof).key
      (zkMint V S (address S k) s.amount s.r mintProof).txPubKey
      (zkMint V S (address S k) s.amount s.r mintProof).viewTag =
        some (k, createOutput S (address S k) s.r) := finds.owner_eq
  have widths : ¬ ((zkMint V S (address S k) s.amount s.r mintProof).key.length ≠ 32 ∨
      (zkMint V S (address S k) s.amount s.r mintProof).txPubKey.length ≠ 32 ∨
      (zkMint V S (address S k) s.amount s.r mintProof).leaf.length ≠ 32) := by
    rw [canonical_length canonical]
    simp [zkMint, S.length_pointBytes]
  unfold mintedCoin
  rw [if_neg widths, owned]
  simp only [Option.bind_eq_bind, Option.bind_some]
  rw [sharedSecret_createOutput, nodeFromBytes_canonical canonical]
  exact if_neg (not_not.mpr rfl)

/-- The recipient claims the coin of a confidential spend. -/
theorem sentCoin_czkSpend (digests : Digests V) (finds : Finds S keys s.r k) (fee : UInt64)
    (nullifier anchor proof : Bytes) :
    sentCoin V S.curve keys
        (czkSpend V S (address S k) s.amount fee s.r nullifier anchor proof) =
      some (paidCoin V S k s
        (czkSpend V S (address S k) s.amount fee s.r nullifier anchor proof).leafOut) := by
  generalize made : czkSpend V S (address S k) s.amount fee s.r nullifier anchor proof = spend
  have canonical : (parseNode spend.leafOut).isSome = true := by
    rw [← made]
    exact digests.wideHash2 _ _
  have owned : owner S.curve keys spend.key spend.txPubKey spend.viewTag =
      some (k, createOutput S (address S k) s.r) := by
    rw [← made]
    exact finds.owner_eq
  have widths : ¬ (spend.key.length ≠ 32 ∨ spend.txPubKey.length ≠ 32 ∨
      spend.leafOut.length ≠ 32) := by
    rw [canonical_length canonical, ← made]
    simp [czkSpend, S.length_pointBytes]
  have amount : unmaskAmount V (S.pointBytes (s.r • (address S k).A)) spend.encAmount =
      some s.amount := by
    rw [← made]
    exact unmask_xorU64LE digests _ _
  unfold sentCoin
  rw [if_neg widths, owned]
  simp only [Option.bind_eq_bind, Option.bind_some]
  rw [sharedSecret_createOutput, amount, nodeFromBytes_canonical canonical]
  subst made
  exact if_neg (not_not.mpr rfl)

end Kept

/-! ## Found, spendable and provable -/

/-- The wallet finds what is paid to one of its key pairs, with everything it needs to spend. -/
structure Found (w : Wallet M (ZMod L)) (k : StealthKeys M (ZMod L)) (s : Sending L) : Prop where
  recorded : ∀ height isCoinbase sourceTx, ∃ owned x,
    tryClaim S.curve (w.subKeys V S.curve) height isCoinbase sourceTx w.outputs
        (s.output S (address S k)) = w.outputs ++ [owned] ∧
      owned.out = s.output S (address S k) ∧ owned.amount = s.amount ∧
      owned.mask = s.blinding ∧ owned.oneTime = some x ∧
      S.pointSetBytes owned.out.oneTimeKey = some (x • S.basePoint)
  minted : ∀ mintProof b, ∀ t ∈ b.txs,
    zkMint V S (address S k) s.amount s.r mintProof ∈ t.zkOutputs →
      paidCoin V S k s (zkMint V S (address S k) s.amount s.r mintProof).leaf ∈
        scanZKCoins V S.curve (w.subKeys V S.curve) b
  sent : ∀ fee nullifier anchor proof b, ∀ t ∈ b.txs,
    czkSpend V S (address S k) s.amount fee s.r nullifier anchor proof ∈ t.czkSpends →
      paidCoin V S k s
          (czkSpend V S (address S k) s.amount fee s.r nullifier anchor proof).leafOut ∈
        scanZKCoins V S.curve (w.subKeys V S.curve) b

/-- A payment to the address with some index is found, and the receipt that the wallet makes of
the recorded output is good for that address. -/
structure Delivered (w : Wallet M (ZMod L)) (index : Nat) (s : Sending L) : Prop where
  found : Found V S w (w.keys.subaddress V S.curve index) s
  proved : ∀ height isCoinbase sourceTx nonce owned,
    claimed S.curve (w.subKeys V S.curve) height isCoinbase sourceTx w.outputs
        (s.output S (address S (w.keys.subaddress V S.curve index))) = some owned →
    ∃ rb, provePaymentBundle S nonce w owned = .ok rb ∧
      verifyBundle S (address S (w.keys.subaddress V S.curve index)) rb = (s.amount, true)

/-- The output is not recorded yet. -/
def Fresh (w : Wallet M (ZMod L)) (k : StealthKeys M (ZMod L)) (s : Sending L) : Prop :=
  S.pointBytes (createOutput S (address S k) s.r).P ∉ w.outputs.map fun ex => ex.out.oneTimeKey

/-- No subaddress has the view secret of the main keys. -/
def Independent (a : ZMod L) : Prop :=
  ∀ index ≠ 0, S.hashToScalar (ascii "Obscura/sub-view") [S.scalarBytes a, bigEndian 4 index] ≠ a

section Delivery

variable {V} {S} {w : Wallet M (ZMod L)} {k : StealthKeys M (ZMod L)} {s : Sending L}

/-- What the recipient finds, they can spend. -/
theorem found_of_finds (digests : Digests V) (built : Built V S k)
    (finds : Finds S (w.subKeys V S.curve) s.r k) (spending : k.isViewOnly = false)
    (fresh : Fresh S w k s) : Found V S w k s where
  recorded := by
    intro height isCoinbase sourceTx
    obtain ⟨x, secret⟩ : ∃ x, spendSecret S k s.r = some x := by
      cases spend : k.b with
      | none =>
        rw [StealthKeys.isViewOnly, spend] at spending
        exact nomatch spending
      | some b => exact ⟨_, by rw [spendSecret, spend]; rfl⟩
    refine ⟨_, x, congrArg (fun claim => w.outputs ++ claim.toList) (claimed_output finds fresh),
      rfl, rfl, rfl, secret, ?_⟩
    rw [spendSecret_smul built secret]
    exact S.pointSetBytes_pointBytes _
  minted := by
    intro mintProof b t among paid
    have coin := mintedCoin_zkMint digests finds mintProof
    refine List.mem_flatMap.mpr ⟨t, among, List.mem_append_left _ ?_⟩
    exact List.mem_filterMap.mpr ⟨_, paid, coin⟩
  sent := by
    intro fee nullifier anchor proof b t among paid
    have coin := sentCoin_czkSpend digests finds fee nullifier anchor proof
    refine List.mem_flatMap.mpr ⟨t, among, List.mem_append_right _ ?_⟩
    exact List.mem_filterMap.mpr ⟨_, paid, coin⟩

/-- Scanning claims the output. -/
theorem Found.claimed_eq (found : Found V S w k s) (height : Nat) (isCoinbase : Bool)
    (sourceTx : Hash) : ∃ owned x,
      claimed S.curve (w.subKeys V S.curve) height isCoinbase sourceTx w.outputs
        (s.output S (address S k)) = some owned ∧
      owned.out = s.output S (address S k) ∧ owned.oneTime = some x := by
  obtain ⟨owned, x, recorded, out, -, -, oneTime, -⟩ := found.recorded height isCoinbase sourceTx
  refine ⟨owned, x, ?_, out, oneTime⟩
  have added := List.append_cancel_left recorded
  refine Option.mem_toList.mp ?_
  rw [added]
  exact List.mem_singleton_self owned

theorem Found.fresh (found : Found V S w k s) : Fresh S w k s := by
  intro known
  obtain ⟨owned, _, recorded, -⟩ := found.recorded 0 false []
  rw [tryClaim_recorded known] at recorded
  exact absurd recorded (by simp)

theorem Found.spending (found : Found V S w k s) (finds : Finds S (w.subKeys V S.curve) s.r k) :
    k.isViewOnly = false := by
  obtain ⟨owned, x, claim, -, oneTime⟩ := found.claimed_eq 0 false []
  rw [claimed_output finds found.fresh] at claim
  cases claim
  obtain ⟨b, spend, -⟩ := Option.map_eq_some_iff.mp oneTime
  rw [StealthKeys.isViewOnly, spend]
  rfl

theorem found_iff (digests : Digests V) (built : Built V S k)
    (finds : Finds S (w.subKeys V S.curve) s.r k) :
    Found V S w k s ↔ k.isViewOnly = false ∧ Fresh S w k s :=
  ⟨fun found => ⟨found.spending finds, found.fresh⟩,
    fun ⟨spending, fresh⟩ => found_of_finds digests built finds spending fresh⟩

omit [DecidableEq M] in
/-- The bundle for an output of the wallet. -/
theorem provePaymentBundle_output {nonce : ZMod L} {owned : OwnedOutput (ZMod L)}
    {dest : StealthAddress M} (out : owned.out = s.output S dest) :
    provePaymentBundle S nonce w owned =
      .ok ⟨createOutput S dest s.r, (s.output S dest).encAmount,
        proveReceipt S nonce w.keys.a (createOutput S dest s.r) (s.output S dest).encAmount⟩ := by
  have width : (s.output S dest).txPubKey.length = 32 := S.length_pointBytes _
  have key : (s.output S dest).oneTimeKey = S.pointBytes (createOutput S dest s.r).P := rfl
  have txPubKey : (s.output S dest).txPubKey = S.pointBytes (createOutput S dest s.r).R := rfl
  simp only [provePaymentBundle, out, bind_ok, reject_ok, exists_const, pure_ok, ne_eq, not_not]
  refine ⟨width, _, ?_, _, ?_, rfl⟩
  · rw [key, pointFromBytes_pointBytes]
    rfl
  · rw [txPubKey, pointFromBytes_pointBytes]
    rfl

theorem verifyBundle_proveReceipt (ideal : IdealHash S) {a nonce : ZMod L} :
    verifyBundle S (address S k)
        ⟨createOutput S (address S k) s.r, (s.output S (address S k)).encAmount,
          proveReceipt S nonce a (createOutput S (address S k) s.r)
            (s.output S (address S k)).encAmount⟩ = (s.amount, true) ↔
      a = k.a ∧ s.r ≠ 0 ∧ k.a ≠ 0 := by
  have own : (address S k).A = k.a • S.basePoint := rfl
  constructor
  · intro accepted
    obtain ⟨D, shared, either, -, -⟩ := verifyPayment_iff.mp accepted
    obtain rfl : a • s.r • S.basePoint = D := Option.some.inj shared
    have agreed : (s.r • S.basePoint ≠ 0 ∧ (address S k).A ≠ 0) ∧
        a • s.r • S.basePoint = k.a • s.r • S.basePoint := by
      rcases either with recipient | sender
      · obtain ⟨_, _, _, ⟨_, nonceKey, keyed, _⟩, _⟩ := verifyDLEQ_iff.mp recipient
        exact ⟨⟨nonceKey, keyed⟩, (verifyDLEQ_sound ideal recipient).shared_eq S.nonzero own⟩
      · obtain ⟨_, _, _, ⟨_, keyed, nonceKey, _⟩, _⟩ := verifyDLEQ_iff.mp sender
        exact ⟨⟨nonceKey, keyed⟩, (verifyDLEQ_sound ideal sender).shared_eq_of_nonce own⟩
    obtain ⟨⟨nonceKey, keyed⟩, same⟩ := agreed
    refine ⟨smul_left_injective (ZMod L) nonceKey same, fun zero => nonceKey ?_,
      fun zero => keyed ?_⟩
    · rw [zero, zero_smul]
    · rw [own, zero, zero_smul]
  · rintro ⟨rfl, secret, keyed⟩
    have crossed : k.a • s.r • S.basePoint = s.r • (address S k).A := smul_comm _ _ _
    refine verifyPayment_iff.mpr ⟨k.a • s.r • S.basePoint, rfl, Or.inl ?_, ?_, ?_⟩
    · exact verifyDLEQ_proveDLEQ keyed S.nonzero (smul_ne_zero secret S.nonzero) _ _
    · rw [crossed]
      rfl
    · rw [crossed]
      exact decryptAmount_encryptAmount S _ _

theorem Delivered.sameView {index : Nat} (ideal : IdealHash S)
    (delivered : Delivered V S w index s) :
    w.keys.a = (w.keys.subaddress V S.curve index).a ∧ s.r ≠ 0 ∧
      (w.keys.subaddress V S.curve index).a ≠ 0 := by
  obtain ⟨owned, _, claim, out, -⟩ := delivered.found.claimed_eq 0 false []
  obtain ⟨rb, made, verified⟩ := delivered.proved 0 false [] 0 owned claim
  rw [provePaymentBundle_output out] at made
  cases made
  exact (verifyBundle_proveReceipt ideal).mp verified

theorem Delivered.spending {index : Nat} (delivered : Delivered V S w index s) :
    w.keys.isViewOnly = false := by
  cases spend : w.keys.b with
  | some b =>
    rw [StealthKeys.isViewOnly, spend]
    rfl
  | none =>
    have self : w.keys.subaddress V S.curve index = w.keys := by
      rw [StealthKeys.subaddress, spend]
    have found := delivered.found
    rw [self] at found
    exact found.spending finds_head

theorem Delivered.main {index : Nat} (ideal : IdealHash S) (independent : Independent S w.keys.a)
    (delivered : Delivered V S w index s) : index = 0 := by
  by_contra other
  have same := (delivered.sameView ideal).1
  have spending := delivered.spending
  cases spend : w.keys.b with
  | none =>
    rw [StealthKeys.isViewOnly, spend] at spending
    exact nomatch spending
  | some b =>
    simp only [StealthKeys.subaddress, spend, if_neg other] at same
    exact independent index other same.symm

end Delivery

/-- What is paid to any address of a wallet is found and can be spent, when no other of its keys
matches. The receipt is good for the main address only. -/
theorem payment_delivered {V : Primitives} {S : Suite L M} (ideal : IdealHash S)
    (digests : Digests V) (w : Wallet M (ZMod L)) (built : Built V S w.keys)
    (independent : Independent S w.keys.a) (index : Nat) (enabled : index ≤ w.subCount)
    (s : Sending L) :
    (Apart S (w.subKeys V S.curve) s.r (w.keys.subaddress V S.curve index) →
      (Found V S w (w.keys.subaddress V S.curve index) s ↔
        w.keys.isViewOnly = false ∧ Fresh S w (w.keys.subaddress V S.curve index) s)) ∧
    (Delivered V S w index s ↔
      index = 0 ∧ w.keys.isViewOnly = false ∧ Fresh S w w.keys s ∧ s.r ≠ 0 ∧ w.keys.a ≠ 0) := by
  constructor
  · intro apart
    have finds := finds_of_apart (mem_subKeys V S w enabled) apart
    rw [found_iff digests (built.subaddress V S index) finds, isViewOnly_subaddress]
  · constructor
    · intro delivered
      obtain rfl := delivered.main ideal independent
      obtain ⟨-, secret, keyed⟩ := delivered.sameView ideal
      have fresh := delivered.found.fresh
      rw [subaddress_zero] at keyed fresh
      exact ⟨rfl, delivered.spending, fresh, secret, keyed⟩
    · rintro ⟨rfl, spending, fresh, secret, keyed⟩
      have finds : Finds S (w.subKeys V S.curve) s.r w.keys := finds_head
      have found := found_of_finds digests built finds spending fresh
      constructor
      · rw [subaddress_zero]
        exact found
      · intro height isCoinbase sourceTx nonce owned claim
        rw [subaddress_zero] at claim ⊢
        rw [claimed_output finds fresh] at claim
        cases claim
        refine ⟨_, provePaymentBundle_output rfl, ?_⟩
        exact (verifyBundle_proveReceipt ideal).mpr ⟨rfl, secret, keyed⟩

/-! ## A receipt that its own address refuses -/

namespace Subaddress

/-- The hash of the sample group, where a subaddress has a view secret of its own. -/
def hash (domain : Bytes) (data : List Bytes) : ZMod Forgery.order :=
  if domain = ascii "Obscura/sub-view" then Forgery.hash domain data + 1
  else Forgery.hash domain data

/-- The suite over a hash that one domain is fixed in. -/
def suite : Suite Forgery.order (ZMod Forgery.order) :=
  { Forgery.suite with hashToScalar := hash }

theorem hash_of_ne {domain : Bytes} (other : domain ≠ ascii "Obscura/sub-view")
    (data : List Bytes) : hash domain data = Forgery.hash domain data :=
  if_neg other

theorem verifyDLEQ_suite (g1 p1 g2 p2 : ZMod Forgery.order) (proof : DLEQProof Forgery.order)
    (dom : Bytes) (aad : List Bytes) :
    verifyDLEQ suite g1 p1 g2 p2 proof dom aad =
      verifyDLEQ Forgery.suite g1 p1 g2 p2 proof dom aad := by
  have apart : Forgery.network ≠ ascii "Obscura/sub-view" := by decide
  have same (t1 t2 : ZMod Forgery.order) : dleqChallenge suite dom g1 g2 p1 p2 t1 t2 aad =
      dleqChallenge Forgery.suite dom g1 g2 p1 p2 t1 t2 aad := by
    unfold dleqChallenge
    exact hash_of_ne apart _
  simp only [verifyDLEQ, same]

/-- The sample hash is ideal. -/
theorem ideal : IdealHash suite where
  rewinds := by
    intro g1 p1 g2 p2 c s dom aad verified
    rw [verifyDLEQ_suite] at verified
    exact Forgery.ideal.rewinds verified
  stealth := by
    intro D D' same
    have apart : ascii "Obscura/stealth" ≠ ascii "Obscura/sub-view" := by decide
    refine Forgery.ideal.stealth ?_
    exact (hash_of_ne apart _).symm.trans (same.trans (hash_of_ne apart _))

/-- Primitives whose note hash keeps the leaves apart. -/
def primitives : Primitives :=
  { Testnet.primitives Forge.digest with
    wideHash2 := fun left right => feltNode (feltFromBytes (Forge.digest (left ++ right))) }

theorem newFelt_lt (x : UInt64) : (newFelt x).toNat < Config.goldilocks := by
  have bound := x.toNat_lt
  have half : 2 ^ 64 ≤ 2 * Config.goldilocks := by decide
  rw [newFelt_toNat]
  split_ifs <;> omega

/-- A field element in the first limb is a canonical node. -/
theorem feltNode_canonical {felt : UInt64} (small : felt.toNat < Config.goldilocks) :
    (parseNode (feltNode felt)).isSome = true := by
  have width : (wU64 felt).length = 8 := length_bigEndian 8 _
  have value : ofBigEndian (wU64 felt) = felt.toNat := by
    have bound := felt.toNat_lt
    rw [wU64, putU64, ofBigEndian_bigEndian, Nat.mod_eq_of_lt (by omega)]
  have length : (feltNode felt).length = 32 := by
    rw [feltNode, List.length_append, width, List.length_replicate]
  rw [parseNode, if_pos]
  · rfl
  · refine ⟨length, fun limb member => ?_⟩
    have below := List.mem_range.mp member
    cases limb with
    | zero =>
      rw [Nat.zero_mul, List.drop_zero, feltNode, List.take_left' width, value]
      exact small
    | succ limb =>
      have zeros : ((feltNode felt).drop ((limb + 1) * 8)).take 8 = List.replicate 8 0 := by
        rw [feltNode, List.drop_append, List.drop_eq_nil_of_le (by omega), width,
          List.nil_append, List.drop_replicate, List.take_replicate]
        congr 1
        omega
      rw [zeros]
      decide

theorem digests : Digests primitives where
  blake2b := Forge.length_digest
  wideHash2 _ _ := feltNode_canonical (newFelt_lt _)

/-- A wallet with one subaddress. -/
def wallet : Wallet (ZMod Forgery.order) (ZMod Forgery.order) where
  keys := stealthKeys primitives suite 3 5
  subCount := 1

/-- A payment of seven atoms. -/
def payment : Sending Forgery.order where
  r := 2
  amount := 7
  blinding := 4

theorem read_encode (x : ZMod Forgery.order) (data : List Bytes) {domain : Bytes}
    (other : domain ≠ Forgery.network) : Forgery.hash domain (Forgery.encode x :: data) = x := by
  simp only [Forgery.hash, if_neg other, List.getD_cons_zero, Forgery.decode_encode,
    Option.getD_some]

theorem hash_subView (x : ZMod Forgery.order) (data : List Bytes) :
    hash (ascii "Obscura/sub-view") (Forgery.encode x :: data) = x + 1 := by
  rw [hash, if_pos rfl, read_encode x data (by decide)]

theorem hash_encode (domain : Bytes) (x : ZMod Forgery.order) (data : List Bytes)
    (other : domain ≠ Forgery.network) (apart : domain ≠ ascii "Obscura/sub-view") :
    hash domain (Forgery.encode x :: data) = x := by
  rw [hash_of_ne apart, read_encode x data other]

theorem derivedKey_eq (dest : StealthAddress (ZMod Forgery.order)) (D : ZMod Forgery.order) :
    derivedKey suite dest D = D + dest.B := by
  have read : suite.hashToScalar (ascii "Obscura/stealth") [suite.pointBytes D] = D :=
    hash_encode (ascii "Obscura/stealth") D [] (by decide) (by decide)
  rw [derivedKey, read]
  exact congrArg (· + dest.B) (mul_one D)

theorem independent : Independent suite wallet.keys.a := by
  intro index _ same
  have moved := (hash_subView wallet.keys.a [bigEndian 4 index]).symm.trans same
  exact one_ne_zero (add_eq_left.mp moved)

theorem built : Built primitives suite wallet.keys := Built.spending 3 5

theorem fresh (k : StealthKeys (ZMod Forgery.order) (ZMod Forgery.order)) :
    Fresh suite wallet k payment :=
  List.not_mem_nil

/-- The first subaddress. -/
theorem subaddress_eq :
    wallet.keys.subaddress primitives suite.curve 1 = stealthKeys primitives suite 4 5 := by
  have view (a : ZMod Forgery.order) : suite.hashToScalar (ascii "Obscura/sub-view")
      [suite.scalarBytes a, bigEndian 4 1] = a + 1 := hash_subView a [bigEndian 4 1]
  have spend (b : ZMod Forgery.order) : suite.hashToScalar (ascii "Obscura/sub-spend")
      [suite.scalarBytes b, bigEndian 4 1] = b :=
    hash_encode (ascii "Obscura/sub-spend") b [bigEndian 4 1] (by decide) (by decide)
  have next : (3 : ZMod Forgery.order) + 1 = 4 := by decide
  refine (subaddress_succ primitives suite 3 5 0).trans ?_
  rw [view, spend, next]

theorem apart : Apart suite (wallet.subKeys primitives suite.curve) payment.r
    (wallet.keys.subaddress primitives suite.curve 1) := by
  intro k' member matched
  have listed : k' = wallet.keys ∨ k' = wallet.keys.subaddress primitives suite.curve 1 := by
    simpa [subKeys, wallet] using member
  rcases listed with rfl | rfl
  · rw [subaddress_eq] at matched
    have owns := owns_iff.mp (scanMatch_owns matched)
    simp only [derivedKey_eq] at owns
    exact absurd owns (by decide)
  · rfl

end Subaddress

open Subaddress in
/-- The main address of the sample wallet gets its payment and its receipt, the subaddress gets
the payment only. -/
theorem payment_delivered_sample :
    Delivered primitives suite wallet 0 payment ∧
      Found primitives suite wallet (wallet.keys.subaddress primitives suite.curve 1) payment ∧
      ¬ Delivered primitives suite wallet 1 payment := by
  have first := payment_delivered ideal digests wallet built independent 0 (Nat.zero_le 1) payment
  have second := payment_delivered ideal digests wallet built independent 1 le_rfl payment
  refine ⟨first.2.mpr ⟨rfl, rfl, fresh _, by decide, by decide⟩, ?_, fun delivered => ?_⟩
  · exact (second.1 apart).mpr ⟨rfl, fresh _⟩
  · exact absurd (second.2.mp delivered).1 one_ne_zero

open Subaddress in
/-- A payment to a subaddress is found, but the receipt shows the shared point of the main
keys. -/
theorem subaddress_receipt : ¬ ∀ (V : Primitives)
    (S : Suite Forgery.order (ZMod Forgery.order)), IdealHash S → Digests V →
    ∀ w : Wallet (ZMod Forgery.order) (ZMod Forgery.order), Built V S w.keys →
    Independent S w.keys.a → w.keys.isViewOnly = false → w.keys.a ≠ 0 →
    ∀ index ≤ w.subCount, ∀ s : Sending Forgery.order, s.r ≠ 0 →
    Fresh S w (w.keys.subaddress V S.curve index) s →
    Apart S (w.subKeys V S.curve) s.r (w.keys.subaddress V S.curve index) →
    Delivered V S w index s := by
  intro promise
  have delivered := promise primitives suite ideal digests wallet built independent rfl
    (by decide) 1 le_rfl payment (by decide) (fresh _) apart
  exact absurd (delivered.main ideal independent) one_ne_zero

end Obscura.Payment
