import Obscura.Lib.Numerals
import Mathlib.Algebra.Field.ZMod
import Mathlib.NumberTheory.LucasLehmer
import Obscura.Forge
import Obscura.Lib.ChaumPedersen
import Obscura.Wallet

/-! # Payment proofs

A receipt proves to a third party that an output pays an address. It carries copies of the
output's one-time key, transaction key and encrypted amount, the shared point and a proof of
equal logarithms, made with the view secret by the recipient or with the transaction secret by
the sender; the verifier sees nothing of the chain. The group has prime order, and the owner's
side is the wallet's: `Wallet.StealthKeys.owns` and `Wallet.decryptAmount` over the same group.
-/

namespace Obscura.Payment

open Wire Tx Wallet Checked ChaumPedersen Numerals

/-- The group of `edwards25519` with prime order, the two generators, the encodings and the
hash functions of package `commit`. -/
structure Suite (L : Nat) (M : Type) [Fact L.Prime] [AddCommGroup M] [Module (ZMod L) M] where
  basePoint : M
  hPoint : M
  pointSetBytes : Bytes → Option M
  pointBytes : M → Bytes
  scalarSetBytes : Bytes → Option (ZMod L)
  scalarBytes : ZMod L → Bytes
  hashToScalar : (domain : Bytes) → (data : List Bytes) → ZMod L
  sha512 : Bytes → Bytes
  /-- `netDom`: the tag and the network's identifier. -/
  netDom : Bytes
  generates : ∀ P : M, ∃ x : ZMod L, P = x • basePoint
  nonzero : basePoint ≠ 0
  length_pointBytes : ∀ P, (pointBytes P).length = 32
  pointSetBytes_pointBytes : ∀ P, pointSetBytes (pointBytes P) = some P
  length_scalarBytes : ∀ x, (scalarBytes x).length = 32
  scalarSetBytes_scalarBytes : ∀ x, scalarSetBytes (scalarBytes x) = some x
  length_sha512 : ∀ bytes, (sha512 bytes).length = 64

/-- `commit.StealthAddress`. -/
structure StealthAddress (M : Type) where
  A : M
  B : M
  nfPk : Bytes

/-- A challenge and a response; an unset one is `none`. -/
structure DLEQProof (L : Nat) where
  C : Option (ZMod L)
  S : Option (ZMod L)

/-- The shared point with a proof that it belongs to the output and the view key. -/
structure PaymentProof (L : Nat) (M : Type) where
  /-- The shared point. -/
  D : Option M
  proof : DLEQProof L

/-- A receipt as it is handed to a third party. -/
structure ReceiptBundle (L : Nat) (M : Type) where
  out : StealthOutput M
  encAmount : Bytes
  proof : PaymentProof L M

variable {L : Nat} {M : Type} [Fact L.Prime] [AddCommGroup M] [Module (ZMod L) M]
  (S : Suite L M)

/-- The same group as the wallet uses it. -/
def Suite.curve : Curve M (ZMod L) where
  pointSetBytes := S.pointSetBytes
  pointBytes := S.pointBytes
  scalarSetBytes := S.scalarSetBytes
  scalarBytes := S.scalarBytes
  scalarMult x P := x • P
  scalarBaseMult x := x • S.basePoint
  addPoint P Q := P + Q
  addScalar x y := x + y
  hashToScalar := S.hashToScalar
  commit v r := S.pointBytes ((v.toNat : ZMod L) • S.hPoint + r • S.basePoint)
  sha512 := S.sha512

/-- The address of a key pair. -/
def address (k : StealthKeys M (ZMod L)) : StealthAddress M :=
  ⟨k.a • S.basePoint, k.spendKey, k.nfPk⟩

/-! ## Proofs of equal logarithms -/

/-- The challenge over the statement, the commitments and the attached data. -/
def dleqChallenge (dom : Bytes) (g1 g2 p1 p2 t1 t2 : M) (aad : List Bytes) : ZMod L :=
  S.hashToScalar S.netDom
    ([dom, S.pointBytes g1, S.pointBytes g2, S.pointBytes p1, S.pointBytes p2, S.pointBytes t1,
      S.pointBytes t2] ++ aad.flatMap fun a => [bigEndian 4 a.length, a])

/-- The nonce is the argument `k`. -/
def proveDLEQ (k x : ZMod L) (g1 g2 : M) (dom : Bytes) (aad : List Bytes) :
    M × M × DLEQProof L :=
  let p1 := x • g1
  let p2 := x • g2
  let c := dleqChallenge S dom g1 g2 p1 p2 (k • g1) (k • g2) aad
  (p1, p2, ⟨some c, some (respond c x k)⟩)

/-- The points are checked for small order, then the challenge is made again. -/
def verifyDLEQ [DecidableEq M] (g1 p1 g2 p2 : M) (proof : DLEQProof L) (dom : Bytes)
    (aad : List Bytes) : Bool :=
  match proof.C, proof.S with
  | some c, some s =>
    if g1 = 0 ∨ g2 = 0 ∨ p1 = 0 ∨ p2 = 0 then
      false
    else
      let t1 := s • g1 - c • p1
      let t2 := s • g2 - c • p2
      decide (dleqChallenge S dom g1 g2 p1 p2 t1 t2 aad = c)
  | _, _ => false

/-! ## Receipts -/

/-- The domain of receipt proofs. -/
def paymentProofDom : Bytes := ascii "Obscura/payment-proof"

/-- The recipient's proof. -/
def proveReceipt (nonce a : ZMod L) (out : StealthOutput M) (encAmount : Bytes) :
    PaymentProof L M :=
  let (_, d, proof) := proveDLEQ S nonce a S.basePoint out.R paymentProofDom [encAmount]
  ⟨some d, proof⟩

/-- The sender's proof, from the transaction secret `r`. -/
def proveSpend (nonce r : ZMod L) (addr : StealthAddress M) (encAmount : Bytes) :
    PaymentProof L M :=
  let (_, d, proof) := proveDLEQ S nonce r S.basePoint addr.A paymentProofDom [encAmount]
  ⟨some d, proof⟩

/-- The one-time key that a shared point gives for an address. -/
def derivedKey (addr : StealthAddress M) (D : M) : M :=
  S.hashToScalar (ascii "Obscura/stealth") [S.pointBytes D] • S.basePoint + addr.B

/-! ## Encodings -/

/-- An encoded point, or the curve's error. -/
def pointFromBytes (bytes : Bytes) : Except String M :=
  orReject (S.pointSetBytes bytes) "edwards25519: invalid point encoding"

/-- A canonical scalar, or an error. -/
def scalarFromBytes (bytes : Bytes) : Except String (ZMod L) :=
  orReject (S.scalarSetBytes bytes) "invalid scalar encoding"

/-- The two scalars of a proof. -/
def parseDLEQ (b : Bytes) : Except String (DLEQProof L) := do
  reject (b.length ≠ 64) "dleq: proof must be 64 bytes"
  let c ← scalarFromBytes S (b.take 32)
  let s ← scalarFromBytes S (b.drop 32)
  pure ⟨some c, some s⟩

/-- The shared point and its proof. -/
def parsePaymentProof (b : Bytes) : Except String (PaymentProof L M) := do
  reject (b.length ≠ 96) "txproof: payment proof must be 96 bytes"
  let d ← pointFromBytes S (b.take 32)
  let pr ← parseDLEQ S (b.drop 32)
  pure ⟨some d, pr⟩

/-- The output's keys, the encrypted amount and the proof. -/
def parseReceiptBundle (b : Bytes) : Except String (ReceiptBundle L M) := do
  reject (b.length ≠ 168) "txproof: receipt bundle must be 168 bytes"
  let P ← pointFromBytes S (b.take 32)
  let R ← pointFromBytes S ((b.drop 32).take 32)
  let enc := (b.drop 64).take 8
  let pp ← parsePaymentProof S (b.drop 72)
  pure ⟨⟨P, R⟩, enc, pp⟩

/-- The encoding of a bundle whose proof is set. -/
def ReceiptBundle.serialize (out : StealthOutput M) (encAmount : Bytes) (D : M) (c s : ZMod L) :
    Bytes :=
  let enc := if encAmount.length ≠ 8 then List.replicate 8 0 else encAmount
  S.pointBytes out.P ++ S.pointBytes out.R ++ enc ++
    (S.pointBytes D ++ (S.scalarBytes c ++ S.scalarBytes s))

@[simp] theorem pointFromBytes_pointBytes (P : M) : pointFromBytes S (S.pointBytes P) = .ok P := by
  rw [pointFromBytes, S.pointSetBytes_pointBytes, orReject_ok]

@[simp] theorem scalarFromBytes_scalarBytes (x : ZMod L) :
    scalarFromBytes S (S.scalarBytes x) = .ok x := by
  rw [scalarFromBytes, S.scalarSetBytes_scalarBytes, orReject_ok]

theorem parseDLEQ_append (c s : ZMod L) :
    parseDLEQ S (S.scalarBytes c ++ S.scalarBytes s) = .ok ⟨some c, some s⟩ := by
  have first := S.length_scalarBytes c
  simp only [parseDLEQ, bind_ok, reject_ok, exists_const, pure_ok, ne_eq, not_not,
    List.length_append, List.take_left' first, List.drop_left' first, scalarFromBytes_scalarBytes,
    S.length_scalarBytes, Except.ok.injEq]
  exact ⟨trivial, c, rfl, s, rfl, rfl⟩

/-- A proof is read back. -/
theorem parsePaymentProof_append (D : M) (c s : ZMod L) :
    parsePaymentProof S (S.pointBytes D ++ (S.scalarBytes c ++ S.scalarBytes s)) =
      .ok ⟨some D, ⟨some c, some s⟩⟩ := by
  have first := S.length_pointBytes D
  simp only [parsePaymentProof, bind_ok, reject_ok, exists_const, pure_ok, ne_eq, not_not,
    List.length_append, List.take_left' first, List.drop_left' first, pointFromBytes_pointBytes,
    S.length_pointBytes, S.length_scalarBytes, parseDLEQ_append, Except.ok.injEq]
  exact ⟨trivial, D, rfl, _, rfl, rfl⟩

/-- A bundle survives its encoding. -/
theorem parse_serialize (out : StealthOutput M) {encAmount : Bytes} (width : encAmount.length = 8)
    (D : M) (c s : ZMod L) :
    parseReceiptBundle S (ReceiptBundle.serialize S out encAmount D c s) =
      .ok ⟨out, encAmount, ⟨some D, ⟨some c, some s⟩⟩⟩ := by
  have first := S.length_pointBytes out.P
  have second := S.length_pointBytes out.R
  have keys : (S.pointBytes out.P ++ S.pointBytes out.R).length = 64 := by
    rw [List.length_append, first, second]
  have front : (S.pointBytes out.P ++ S.pointBytes out.R ++ encAmount).length = 72 := by
    rw [List.length_append, keys, width]
  have total : (ReceiptBundle.serialize S out encAmount D c s).length = 168 := by
    simp only [ReceiptBundle.serialize, width, ne_eq, not_true, ↓reduceIte, List.length_append,
      S.length_pointBytes, S.length_scalarBytes]
  have atP : (ReceiptBundle.serialize S out encAmount D c s).take 32 = S.pointBytes out.P := by
    simp only [ReceiptBundle.serialize, List.append_assoc, List.take_left' first]
  have atR : ((ReceiptBundle.serialize S out encAmount D c s).drop 32).take 32 =
      S.pointBytes out.R := by
    simp only [ReceiptBundle.serialize, List.append_assoc, List.drop_left' first,
      List.take_left' second]
  have atEnc : ((ReceiptBundle.serialize S out encAmount D c s).drop 64).take 8 = encAmount := by
    simp only [ReceiptBundle.serialize, width, ne_eq, not_true, ↓reduceIte]
    rw [List.append_assoc _ encAmount, List.drop_left' keys, List.take_left' width]
  have atProof : (ReceiptBundle.serialize S out encAmount D c s).drop 72 =
      S.pointBytes D ++ (S.scalarBytes c ++ S.scalarBytes s) := by
    simp only [ReceiptBundle.serialize, width, ne_eq, not_true, ↓reduceIte]
    rw [List.drop_left' front]
  simp only [parseReceiptBundle, bind_ok, reject_ok, exists_const, pure_ok, ne_eq, not_not, total,
    atP, atR, atEnc, atProof, pointFromBytes_pointBytes, parsePaymentProof_append,
    Except.ok.injEq]
  exact ⟨trivial, _, rfl, _, rfl, _, rfl, rfl⟩

/-! ## Verification -/

variable [DecidableEq M]

/-- The amount that the shared secret of an accepted receipt decrypts. -/
def verifyPayment (addr : StealthAddress M) (out : StealthOutput M) (encAmount : Bytes)
    (pp : PaymentProof L M) : UInt64 × Bool :=
  match pp.D with
  | none => (0, false)
  | some D =>
    let recipientOK :=
      verifyDLEQ S S.basePoint addr.A out.R D pp.proof paymentProofDom [encAmount]
    let senderOK :=
      verifyDLEQ S S.basePoint out.R addr.A D pp.proof paymentProofDom [encAmount]
    if !recipientOK && !senderOK then
      (0, false)
    else if derivedKey S addr D ≠ out.P then
      (0, false)
    else
      (decryptAmount S.curve (S.pointBytes D) encAmount, true)

/-- `VerifyBundle` looks at the bundle alone. -/
def verifyBundle (addr : StealthAddress M) (rb : ReceiptBundle L M) : UInt64 × Bool :=
  verifyPayment S addr rb.out rb.encAmount rb.proof

/-! ## Hidden amounts -/

section Amounts

omit [DecidableEq M]

/-- A pad taken twice cancels. -/
theorem zipWith_xor_twice {text pad : Bytes} (long : text.length ≤ pad.length) :
    List.zipWith (· ^^^ ·) (List.zipWith (· ^^^ ·) text pad) pad = text := by
  induction text generalizing pad with
  | nil => rfl
  | cons byte text ih =>
    cases pad with
    | nil => exact absurd long (by simp)
    | cons mask pad =>
      have rest := ih (Nat.le_of_succ_le_succ long)
      simp only [List.zipWith_cons_cons, rest, UInt8.xor_assoc, UInt8.xor_self,
        UInt8.xor_zero]

theorem length_keystream (shared label : Bytes) (width : Nat) :
    width ≤ ((List.range (width / 64 + 1)).flatMap fun ctr =>
      S.sha512 (ascii "Obscura/ks/" ++ label ++ shared ++ [UInt8.ofNat ctr])).length := by
  simp only [List.length_flatMap, S.length_sha512, List.map_const', List.sum_replicate,
    List.length_range, smul_eq_mul]
  omega

@[simp] theorem length_encryptBytes (shared label text : Bytes) :
    (encryptBytes S.curve shared label text).length = text.length := by
  have long := length_keystream S shared label text.length
  simp only [encryptBytes, List.length_zipWith]
  exact Nat.min_eq_left long

@[simp] theorem encryptBytes_twice (shared label text : Bytes) :
    encryptBytes S.curve shared label (encryptBytes S.curve shared label text) = text := by
  conv_lhs => rw [encryptBytes]
  rw [length_encryptBytes]
  exact zipWith_xor_twice (length_keystream S shared label text.length)

theorem encryptBytes_inj {shared label text text' : Bytes} :
    encryptBytes S.curve shared label text = encryptBytes S.curve shared label text' ↔
      text = text' := by
  refine ⟨fun same => ?_, fun same => by rw [same]⟩
  rw [← encryptBytes_twice S shared label text, same, encryptBytes_twice]

/-- An amount under the keystream of a shared secret. -/
def encryptAmount (shared : Bytes) (amount : UInt64) : Bytes :=
  encryptBytes S.curve shared (ascii "amount") (wU64 amount).reverse

@[simp] theorem length_encryptAmount (shared : Bytes) (amount : UInt64) :
    (encryptAmount S shared amount).length = 8 := by
  rw [encryptAmount, length_encryptBytes, List.length_reverse]
  exact length_bigEndian 8 _

theorem littleEndian64_inj {bytes bytes' : Bytes} (width : bytes.length = 8)
    (width' : bytes'.length = 8) :
    littleEndian64 bytes = littleEndian64 bytes' ↔ bytes = bytes' := by
  refine ⟨fun same => ?_, fun same => by rw [same]⟩
  have bound := ofBigEndian_lt bytes.reverse
  have bound' := ofBigEndian_lt bytes'.reverse
  rw [List.length_reverse, width] at bound
  rw [List.length_reverse, width'] at bound'
  have numbers := congrArg UInt64.toNat same
  rw [littleEndian64, littleEndian64, UInt64.toNat_ofNat', UInt64.toNat_ofNat',
    Nat.mod_eq_of_lt (by omega), Nat.mod_eq_of_lt (by omega)] at numbers
  refine List.reverse_injective (ofBigEndian_inj ?_ numbers)
  rw [List.length_reverse, List.length_reverse, width, width']

theorem littleEndian64_wU64 (v : UInt64) : littleEndian64 (wU64 v).reverse = v := by
  have bound := v.toNat_lt
  rw [littleEndian64, List.reverse_reverse, wU64, putU64, ofBigEndian_bigEndian,
    Nat.mod_eq_of_lt (by omega)]
  exact UInt64.ofNat_toNat

@[simp] theorem decryptAmount_encryptAmount (shared : Bytes) (amount : UInt64) :
    decryptAmount S.curve shared (encryptAmount S shared amount) = amount := by
  rw [decryptAmount, if_neg (by simp), encryptAmount, encryptBytes_twice, littleEndian64_wU64]

/-- A field of another width is read as an encryption of zero. -/
def amountField (shared enc : Bytes) : Bytes :=
  if enc.length = 8 then enc else encryptAmount S shared 0

theorem decryptAmount_field (shared enc : Bytes) :
    decryptAmount S.curve shared (amountField S shared enc) = decryptAmount S.curve shared enc := by
  unfold amountField
  split
  · rfl
  · next other => rw [decryptAmount_encryptAmount, decryptAmount, if_pos other]

theorem length_amountField (shared enc : Bytes) : (amountField S shared enc).length = 8 := by
  unfold amountField
  split
  · next width => exact width
  · exact length_encryptAmount S shared 0

theorem decryptAmount_inj {shared enc enc' : Bytes} :
    decryptAmount S.curve shared enc = decryptAmount S.curve shared enc' ↔
      amountField S shared enc = amountField S shared enc' := by
  have width := length_amountField S shared enc
  have width' := length_amountField S shared enc'
  rw [← decryptAmount_field S shared enc, ← decryptAmount_field S shared enc', decryptAmount,
    decryptAmount, if_neg (not_not.mpr width), if_neg (not_not.mpr width'),
    littleEndian64_inj (by rw [length_encryptBytes, width])
      (by rw [length_encryptBytes, width']), encryptBytes_inj]

end Amounts

/-! ## What an accepted receipt says -/

variable {S} {addr : StealthAddress M} {keys : StealthKeys M (ZMod L)} {v : UInt64}

theorem verifyDLEQ_iff {g1 p1 g2 p2 : M} {proof : DLEQProof L} {dom : Bytes} {aad : List Bytes} :
    verifyDLEQ S g1 p1 g2 p2 proof dom aad = true ↔ ∃ c s, proof = ⟨some c, some s⟩ ∧
      (g1 ≠ 0 ∧ g2 ≠ 0 ∧ p1 ≠ 0 ∧ p2 ≠ 0) ∧
      dleqChallenge S dom g1 g2 p1 p2 (committed g1 p1 c s) (committed g2 p2 c s) aad = c := by
  obtain ⟨_ | c, _ | s⟩ := proof <;>
    simp [verifyDLEQ, committed, and_assoc]

/-- The hash is ideal: whoever answers the challenge it gives could have answered for another
one, and it does not collide on the shared points. -/
structure IdealHash (S : Suite L M) : Prop where
  rewinds : ∀ {g1 p1 g2 p2 : M} {c s : ZMod L} {dom : Bytes} {aad : List Bytes},
    verifyDLEQ S g1 p1 g2 p2 ⟨some c, some s⟩ dom aad = true → ∃ c' s', c ≠ c' ∧
      Answers g1 p1 g2 p2 (committed g1 p1 c s) (committed g2 p2 c s) c' s'
  stealth : ∀ {D D' : M}, S.hashToScalar (ascii "Obscura/stealth") [S.pointBytes D] =
    S.hashToScalar (ascii "Obscura/stealth") [S.pointBytes D'] → D = D'

theorem verifyDLEQ_sound (ideal : IdealHash S) {g1 p1 g2 p2 : M} {proof : DLEQProof L}
    {dom : Bytes} {aad : List Bytes} (verified : verifyDLEQ S g1 p1 g2 p2 proof dom aad = true) :
    SameLog (ZMod L) g1 p1 g2 p2 := by
  obtain ⟨c, s, rfl, _, _⟩ := verifyDLEQ_iff.mp verified
  obtain ⟨c', s', apart, again⟩ := ideal.rewinds verified
  have answers : Answers g1 p1 g2 p2 (committed g1 p1 c s) (committed g2 p2 c s) c s := ⟨rfl, rfl⟩
  exact answers.sameLog again apart

theorem verifyPayment_iff {out : StealthOutput M} {enc : Bytes} {pp : PaymentProof L M} :
    verifyPayment S addr out enc pp = (v, true) ↔ ∃ D, pp.D = some D ∧
      (verifyDLEQ S S.basePoint addr.A out.R D pp.proof paymentProofDom [enc] = true ∨
        verifyDLEQ S S.basePoint out.R addr.A D pp.proof paymentProofDom [enc] = true) ∧
      derivedKey S addr D = out.P ∧ decryptAmount S.curve (S.pointBytes D) enc = v := by
  unfold verifyPayment
  cases pp.D with
  | none => simp
  | some D =>
    simp only [Option.some.injEq, exists_eq_left']
    generalize verifyDLEQ S S.basePoint addr.A out.R D pp.proof paymentProofDom [enc] = recipient
    generalize verifyDLEQ S S.basePoint out.R addr.A D pp.proof paymentProofDom [enc] = sender
    by_cases derived : derivedKey S addr D = out.P
    · cases recipient <;> cases sender <;> simp [derived]
    · cases recipient <;> cases sender <;> simp [derived]

/-- The shared point of an accepted receipt is the address's for the receipt's transaction key,
and the address is not degenerate. -/
theorem verifyBundle_shared (ideal : IdealHash S) {rb : ReceiptBundle L M}
    (accepted : verifyBundle S (address S keys) rb = (v, true)) :
    keys.a ≠ 0 ∧ derivedKey S (address S keys) (keys.a • rb.out.R) = rb.out.P ∧
      decryptAmount S.curve (S.pointBytes (keys.a • rb.out.R)) rb.encAmount = v := by
  obtain ⟨D, _, either, derived, amount⟩ := verifyPayment_iff.mp accepted
  have own : (address S keys).A = keys.a • S.basePoint := rfl
  rcases either with recipient | sender
  · obtain ⟨_, _, _, ⟨_, _, keyed, _⟩, _⟩ := verifyDLEQ_iff.mp recipient
    have shared := (verifyDLEQ_sound ideal recipient).shared_eq S.nonzero own
    rw [shared] at derived amount
    refine ⟨fun zero => keyed ?_, derived, amount⟩
    rw [own, zero, zero_smul]
  · obtain ⟨_, _, _, ⟨_, keyed, _, _⟩, _⟩ := verifyDLEQ_iff.mp sender
    have shared := (verifyDLEQ_sound ideal sender).shared_eq_of_nonce own
    rw [shared] at derived amount
    refine ⟨fun zero => keyed ?_, derived, amount⟩
    rw [own, zero, zero_smul]

/-! ## The output on the chain -/

/-- The one-time key of an output comes from the shared point of its own transaction key. -/
def DerivedFor (S : Suite L M) (keys : StealthKeys M (ZMod L)) (P : M) (o : Output) : Prop :=
  ∃ R, S.pointSetBytes o.txPubKey = some R ∧ keys.owns S.curve ⟨P, R⟩ = true

/-- The value that the owner of the keys decrypts and finds in the commitment. -/
def opening (S : Suite L M) (keys : StealthKeys M (ZMod L)) (o : Output) : Option UInt64 := do
  let R ← S.pointSetBytes o.txPubKey
  let shared := S.pointBytes (keys.a • R)
  let mask ← decryptScalar S.curve shared o.encMask
  let amount := decryptAmount S.curve shared o.encAmount
  if S.curve.commit amount mask = o.commitment then some amount else none

omit [DecidableEq M] in
theorem opening_amount {R : M} {o : Output} (decodes : S.pointSetBytes o.txPubKey = some R)
    (opens : opening S keys o = some v) :
    decryptAmount S.curve (S.pointBytes (keys.a • R)) o.encAmount = v := by
  simp only [opening, decodes, Option.bind_eq_bind, Option.bind_some,
    Option.bind_eq_some_iff] at opens
  obtain ⟨_, _, read⟩ := opens
  split at read
  · exact Option.some.inj read
  · cases read

theorem owns_iff {P R : M} :
    keys.owns S.curve ⟨P, R⟩ = true ↔ derivedKey S (address S keys) (keys.a • R) = P := by
  rw [StealthKeys.owns, decide_eq_true_iff]
  rfl

theorem scanMatch_owns {so : StealthOutput M} {tag : UInt8}
    (scanned : keys.scanMatch S.curve so tag = true) : keys.owns S.curve so = true := by
  simp only [StealthKeys.scanMatch] at scanned
  split_ifs at scanned
  exact scanned

/-- A receipt is accepted for the payment that the chain holds exactly when it copies the
output's transaction key and encrypted amount, and the output opens for its owner. -/
theorem verifyBundle_sound_iff (ideal : IdealHash S) {rb : ReceiptBundle L M} {o : Output}
    (accepted : verifyBundle S (address S keys) rb = (v, true)) :
    (DerivedFor S keys rb.out.P o ∧ opening S keys o = some v) ↔
      S.pointSetBytes o.txPubKey = some rb.out.R ∧
        amountField S (S.pointBytes (keys.a • rb.out.R)) rb.encAmount =
          amountField S (S.pointBytes (keys.a • rb.out.R)) o.encAmount ∧
        (opening S keys o).isSome = true := by
  obtain ⟨nonzero, derived, amount⟩ := verifyBundle_shared ideal accepted
  constructor
  · rintro ⟨⟨R, decodes, owns⟩, opens⟩
    have hashed := derived.trans (owns_iff.mp owns).symm
    have shared : keys.a • rb.out.R = keys.a • R :=
      ideal.stealth (smul_left_injective (ZMod L) S.nonzero (add_right_cancel hashed))
    have copied : rb.out.R = R := smul_right_injective M nonzero shared
    rw [copied]
    refine ⟨decodes, ?_, by rw [opens]; rfl⟩
    rw [← decryptAmount_inj, ← copied, amount, copied]
    exact (opening_amount decodes opens).symm
  · rintro ⟨decodes, fields, opens⟩
    refine ⟨⟨rb.out.R, decodes, owns_iff.mpr derived⟩, ?_⟩
    obtain ⟨value, opened⟩ := Option.isSome_iff_exists.mp opens
    have read := opening_amount decodes opened
    rw [← (decryptAmount_inj S).mpr fields, amount] at read
    rw [opened, read]

/-! ## A sender who lies about the amount -/

theorem verifyDLEQ_proveDLEQ {nonce x : ZMod L} {g1 g2 : M} (secret : x ≠ 0) (first : g1 ≠ 0)
    (second : g2 ≠ 0) (dom : Bytes) (aad : List Bytes) :
    verifyDLEQ S g1 (x • g1) g2 (x • g2) (proveDLEQ S nonce x g1 g2 dom aad).2.2 dom aad =
      true := by
  refine verifyDLEQ_iff.mpr ⟨_, _, rfl, ⟨first, second, ?_, ?_⟩, ?_⟩
  · exact smul_ne_zero secret first
  · exact smul_ne_zero secret second
  · rw [committed_respond, committed_respond]

/-- The output of a wallet that pays `amount`; the secrets are arguments. -/
def buildOutput (S : Suite L M) (dest : StealthAddress M) (amount lockUntil : UInt64)
    (r blinding : ZMod L) (rangeProof : Bytes) (primeNonce : UInt64) : Output :=
  let shared := S.pointBytes (r • dest.A)
  { oneTimeKey := S.pointBytes (derivedKey S dest (r • dest.A))
    txPubKey := S.pointBytes (r • S.basePoint)
    commitment := S.curve.commit amount blinding
    rangeProof, primeNonce, lockUntil
    encAmount := encryptAmount S shared amount
    encMask := encryptBytes S.curve shared (ascii "mask") (S.scalarBytes blinding)
    viewTag := StealthKeys.viewTag S.curve shared }

/-- What the sender of an output hands out to show that it pays `amount`. -/
def forgedBundle (S : Suite L M) (dest : StealthAddress M) (r nonce : ZMod L) (amount : UInt64) :
    ReceiptBundle L M :=
  let encAmount := encryptAmount S (S.pointBytes (r • dest.A)) amount
  { out := ⟨derivedKey S dest (r • dest.A), r • S.basePoint⟩
    encAmount, proof := proveSpend S nonce r dest encAmount }

section Forgery

variable {amount lockUntil primeNonce : UInt64} {r blinding nonce : ZMod L} {rangeProof : Bytes}

omit [DecidableEq M] in
theorem opening_buildOutput :
    opening S keys (buildOutput S (address S keys) amount lockUntil r blinding rangeProof
      primeNonce) = some amount := by
  have shared : keys.a • r • S.basePoint = r • (address S keys).A := smul_comm _ _ _
  have mask : decryptScalar S.curve (S.pointBytes (r • (address S keys).A))
      (encryptBytes S.curve (S.pointBytes (r • (address S keys).A)) (ascii "mask")
        (S.scalarBytes blinding)) = some blinding := by
    rw [decryptScalar, encryptBytes_twice]
    exact S.scalarSetBytes_scalarBytes blinding
  simp only [opening, buildOutput, S.pointSetBytes_pointBytes, Option.bind_eq_bind,
    Option.bind_some, shared, mask, decryptAmount_encryptAmount, if_true]

theorem forgedBundle_accepted (dest : StealthAddress M) (keyed : dest.A ≠ 0) (secret : r ≠ 0) :
    verifyBundle S dest (forgedBundle S dest r nonce amount) = (amount, true) := by
  refine verifyPayment_iff.mpr ⟨r • dest.A, rfl, Or.inr ?_, rfl, ?_⟩
  · exact verifyDLEQ_proveDLEQ secret S.nonzero keyed paymentProofDom _
  · exact decryptAmount_encryptAmount S _ amount

end Forgery

/-! ## A receipt for a payment that was not made -/

namespace Forgery

/-- The order of the sample group, a Mersenne prime. -/
def order : Nat := 2 ^ 61 - 1

instance : Fact order.Prime :=
  ⟨lucas_lehmer_sufficiency 61 (by norm_num) (by norm_num)⟩

/-- A scalar in its first eight bytes. -/
def encode (x : ZMod order) : Bytes := wU64 (UInt64.ofNat x.val) ++ List.replicate 24 0

/-- A scalar from its first eight bytes. -/
def decode (bytes : Bytes) : Option (ZMod order) :=
  let value := ofBigEndian (bytes.take 8)
  if bytes.length = 32 ∧ value < order then some value else none

/-- A challenge that no response meets when the statement is false. -/
def avoid (g1 g2 p1 p2 t1 t2 : ZMod order) : ZMod order :=
  if p2 * g1 = p1 * g2 then 0 else (t1 * g2 - t2 * g1) / (p2 * g1 - p1 * g2) + 1

/-- The network's domain. -/
def network : Bytes := ascii "Obscura/net"

/-- A challenge that no false statement meets; other domains read their first input. -/
def hash (domain : Bytes) (data : List Bytes) : ZMod order :=
  let read (i : Nat) : ZMod order := (decode (data.getD i [])).getD 0
  if domain = network then avoid (read 1) (read 2) (read 3) (read 4) (read 5) (read 6) else read 0

theorem val_encoded (x : ZMod order) :
    ofBigEndian (wU64 (UInt64.ofNat x.val)) = x.val := by
  have bound := ZMod.val_lt x
  have small : order < 2 ^ 61 := by decide
  rw [wU64, putU64, ofBigEndian_bigEndian, UInt64.toNat_ofNat']
  omega

theorem length_encode (x : ZMod order) : (encode x).length = 32 := by
  simp [encode]

theorem decode_encode (x : ZMod order) : decode (encode x) = some x := by
  have width : (wU64 (UInt64.ofNat x.val)).length = 8 := length_bigEndian 8 _
  rw [decode, encode, List.take_left' width, val_encoded]
  rw [if_pos ⟨length_encode x, ZMod.val_lt x⟩, ZMod.natCast_zmod_val]

/-- The scalars as a group, with no keystream. -/
def suite : Suite order (ZMod order) where
  basePoint := 1
  hPoint := 1
  pointSetBytes := decode
  pointBytes := encode
  scalarSetBytes := decode
  scalarBytes := encode
  hashToScalar := hash
  sha512 _ := List.replicate 64 0
  netDom := network
  generates P := ⟨P, by rw [smul_eq_mul, mul_one]⟩
  nonzero := one_ne_zero
  length_pointBytes := length_encode
  pointSetBytes_pointBytes := decode_encode
  length_scalarBytes := length_encode
  scalarSetBytes_scalarBytes := decode_encode
  length_sha512 _ := List.length_replicate

theorem challenge_eq (dom : Bytes) (g1 g2 p1 p2 t1 t2 : ZMod order) (aad : List Bytes) :
    dleqChallenge suite dom g1 g2 p1 p2 t1 t2 aad = avoid g1 g2 p1 p2 t1 t2 := by
  simp [dleqChallenge, suite, hash, decode_encode]

/-- The sample hash is ideal. -/
theorem ideal : IdealHash suite where
  rewinds := by
    intro g1 p1 g2 p2 c s dom aad verified
    obtain ⟨_, _, pair, ⟨first, second, _, _⟩, challenge⟩ := verifyDLEQ_iff.mp verified
    cases pair
    rw [challenge_eq] at challenge
    have same : p2 * g1 = p1 * g2 := by
      by_contra other
      rw [avoid, if_neg other] at challenge
      have differ : p2 * g1 - p1 * g2 ≠ 0 := sub_ne_zero.mpr other
      have crossed : committed g1 p1 c s * g2 - committed g2 p2 c s * g1 =
          c * (p2 * g1 - p1 * g2) := by
        simp only [committed, smul_eq_mul]
        ring
      rw [crossed, mul_div_assoc, div_self differ, mul_one] at challenge
      exact one_ne_zero (add_eq_left.mp challenge)
    have moved {g p : ZMod order} (logged : p1 * g = p * g1) :
        committed g p (c + 1) (s + p1 / g1) = committed g p c s := by
      have log : p1 / g1 * g = p := by
        rw [div_mul_eq_mul_div, logged, mul_div_assoc, div_self first, mul_one]
      simp only [committed, smul_eq_mul, add_mul, log, one_mul]
      ring
    exact ⟨c + 1, s + p1 / g1, by simp, moved rfl, moved same.symm⟩
  stealth := by
    intro D D' same
    have apart : ascii "Obscura/stealth" ≠ network := by decide
    simpa [suite, hash, apart, decode_encode] using same

/-! The miner of the first block pays its reward to the owner. -/

/-- The owner of the reward. -/
def owner : StealthKeys (ZMod order) (ZMod order) :=
  { a := 3, b := some 5, nsk := 0, spendKey := 5, nfPk := [] }

/-- The sample network, with the group's decoder. -/
def net : Primitives :=
  { Testnet.primitives Forge.digest with
    pointDecodes := fun bytes => (decode bytes).isSome
    pointIsIdentity := fun bytes => decode bytes == some 0 }

/-- The state after genesis. -/
def ledger : Ledger := replay net []

/-- The output of the reward. -/
def paid : Output where
  oneTimeKey := wU64 11 ++ List.replicate 24 0
  txPubKey := wU64 2 ++ List.replicate 24 0
  commitment := wU64 (Testnet.reward ledger) ++ List.replicate 24 0
  encAmount := (wU64 (Testnet.reward ledger)).reverse
  encMask := List.replicate 32 0

/-- The coinbase that pays the owner. -/
def coinbase : Transaction where
  isCoinbase := true
  outputs := [paid]
  height := 1
  minted := Testnet.reward ledger

/-- The first block. -/
def block : Block :=
  let por := List.replicate Config.porChallenges ⟨0, genesisCoinbase.serialize, []⟩
  { header :=
      { height := 1
        prevHash := (ledger.tip?.map fun tip => tip.id net).getD zeroHash
        timestamp := genesisTimestamp + 120
        difficulty := 64
        merkleRoot := merkleRoot net [coinbase]
        accValue := [1]
        accSize := ledger.acc.size + 1
        nullRoot := ledger.nullAcc.rootAfter net []
        pqAccRoot := ledger.pqAcc.rootAfter net []
        cmRoot := ledger.cmTree.rootAfter net []
        numTxs := 1
        porRoot := porRootOf net por
        stateRoot := ledger.stateRoot net }
    txs := [coinbase], por }

theorem block_accepted :
    validateBlockLocked net (fun _ => false) (genesisTimestamp + 120) ledger block = .ok () := by
  have verdict : (validateBlockLocked net (fun _ => false) (genesisTimestamp + 120) ledger
      block).toOption = some () := by
    set_option maxRecDepth 30000 in
    decide
  revert verdict
  generalize validateBlockLocked net (fun _ => false) (genesisTimestamp + 120) ledger block = result
  intro verdict
  cases result with
  | error text => exact nomatch verdict
  | ok _ => rfl

theorem encode_of_lt {value : Nat} (small : value < order) :
    encode value = wU64 (UInt64.ofNat value) ++ List.replicate 24 0 := by
  rw [encode, ZMod.val_natCast_of_lt small]

theorem reward_small : (Testnet.reward ledger).toNat < order := by
  have bound := (Testnet.reward_spec ledger).2.2
  have large : 40_000_000_000_000 < order := by decide
  exact lt_of_le_of_lt bound large

theorem derivedKey_eq (dest : StealthAddress (ZMod order)) (D : ZMod order) :
    derivedKey suite dest D = D + dest.B := by
  have apart : ascii "Obscura/stealth" ≠ network := by decide
  simp [derivedKey, suite, hash, apart, decode_encode]

theorem derived : derivedKey suite (address suite owner) ((2 : ZMod order) •
    (address suite owner).A) = ((11 : Nat) : ZMod order) := by
  rw [derivedKey_eq]
  decide

/-- On the sample suite nothing is hidden. -/
theorem encryptBytes_eq (shared label text : Bytes) :
    encryptBytes suite.curve shared label text = text := by
  have silent : ∀ (text pad : Bytes), text.length ≤ pad.length → (∀ byte ∈ pad, byte = 0) →
      List.zipWith (· ^^^ ·) text pad = text := by
    intro text
    induction text with
    | nil => exact fun _ _ _ => rfl
    | cons byte text ih =>
      intro pad long zero
      cases pad with
      | nil => exact absurd long (by simp)
      | cons mask pad =>
        rw [List.zipWith_cons_cons, zero mask List.mem_cons_self, UInt8.xor_zero,
          ih pad (Nat.le_of_succ_le_succ long)
            fun other member => zero other (List.mem_cons_of_mem _ member)]
  refine silent text _ (length_keystream suite shared label text.length) fun byte member => ?_
  obtain ⟨_, _, member⟩ := List.mem_flatMap.mp member
  exact List.eq_of_mem_replicate member

/-- The miner built the output as a wallet does. -/
theorem paid_eq :
    paid = buildOutput suite (address suite owner) (Testnet.reward ledger) 0 2 0 [] 0 := by
  have key : encode (derivedKey suite (address suite owner) ((2 : ZMod order) •
      (address suite owner).A)) = wU64 11 ++ List.replicate 24 0 := by
    rw [derived, encode_of_lt (by decide)]
    rfl
  have nonceKey : encode ((2 : ZMod order) • (1 : ZMod order)) =
      wU64 2 ++ List.replicate 24 0 := by
    have two : (2 : ZMod order) • (1 : ZMod order) = ((2 : Nat) : ZMod order) := by decide
    rw [two, encode_of_lt (by decide)]
    rfl
  have commitment : suite.curve.commit (Testnet.reward ledger) 0 =
      wU64 (Testnet.reward ledger) ++ List.replicate 24 0 := by
    have value : (((Testnet.reward ledger).toNat : ZMod order) • (1 : ZMod order) +
        (0 : ZMod order) • (1 : ZMod order)) = ((Testnet.reward ledger).toNat : ZMod order) := by
      rw [smul_eq_mul, mul_one, zero_smul, add_zero]
    refine (congrArg encode value).trans ?_
    rw [encode_of_lt reward_small, UInt64.ofNat_toNat]
  have mask : encode (0 : ZMod order) = List.replicate 32 0 := by decide
  simp only [paid, buildOutput, Output.mk.injEq, encryptAmount, encryptBytes_eq, commitment,
    true_and]
  exact ⟨key.symm, nonceKey.symm, mask.symm, rfl⟩

theorem forged_accepted :
    verifyBundle suite (address suite owner)
      (forgedBundle suite (address suite owner) 2 1 (10 ^ 18)) = (10 ^ 18, true) :=
  forgedBundle_accepted _ (by decide) (by decide)

end Forgery

open Forgery in
/-- The receipt for what the output of the reward pays. -/
theorem verifyBundle_sound_reward :
    let receipt := forgedBundle suite (address suite owner) 2 1 (Testnet.reward ledger)
    DerivedFor suite owner receipt.out.P paid ∧
      opening suite owner paid = some (Testnet.reward ledger) := by
  intro receipt
  have accepted : verifyBundle suite (address suite owner) receipt =
      (Testnet.reward ledger, true) := forgedBundle_accepted _ (by decide) (by decide)
  rw [paid_eq]
  refine (verifyBundle_sound_iff ideal accepted).mpr ⟨suite.pointSetBytes_pointBytes _, rfl, ?_⟩
  rw [opening_buildOutput]
  rfl

open Forgery in
/-- The owner was paid the reward of the first block, and the receipt shows one million coins. -/
theorem forged_receipt : ¬ ∀ (V : Primitives) (now : Int) (L : Ledger) (b : Block)
    (S : Suite order (ZMod order)), IdealHash S →
    (∀ bytes, V.pointDecodes bytes = (S.pointSetBytes bytes).isSome) →
    validateBlockLocked V (fun _ => false) now L b = .ok () →
    ∀ (keys : StealthKeys (ZMod order) (ZMod order)) (rb : ReceiptBundle order (ZMod order))
      (v : UInt64), verifyBundle S (address S keys) rb = (v, true) →
    ∀ t ∈ b.txs, ∀ o ∈ t.outputs, S.pointSetBytes o.oneTimeKey = some rb.out.P →
      DerivedFor S keys rb.out.P o ∧ opening S keys o = some v := by
  intro sound
  have verdict := sound net _ ledger block suite ideal (fun _ => rfl) block_accepted owner _ _
    forged_accepted coinbase (by simp [block]) paid (by simp [coinbase]) ?_
  · rw [paid_eq, opening_buildOutput] at verdict
    have same := Option.some.inj verdict.2
    have bound := (Testnet.reward_spec ledger).2.2
    rw [same] at bound
    exact absurd bound (by decide)
  · rw [paid_eq]
    exact suite.pointSetBytes_pointBytes _

end Obscura.Payment
