import Obscura.Ledger
import Obscura.MembershipProofs
import Obscura.Pqcommit
import Obscura.Pqsign.Wots

/-! # The hybrid-key ledger

The post-quantum output and spend variant: outputs under one-time keys that bind a classical
point and a one-time hash signature root, a nullifier that is derived from the root, and value
conservation over lattice commitments. This module says what every run of funding and spending
keeps (`ledger_run`): a root is spent once, an unspent output has a membership proof, and the
commitments balance up to the wraps of unreduced words.
-/

namespace Obscura.Pqtx

open Wire Checked Pqcommit

/-- The version of the outputs. -/
def version : UInt16 := 2

/-- An output under a one-time key, with a lattice commitment to its amount. -/
structure PQOutput where
  version : UInt16
  oneTimeKey : Bytes
  commitment : Bytes
  kemCiphertext : Bytes
  viewTag : Bytes
  encAmount : Bytes
  mac : Bytes
deriving DecidableEq

/-- The spend of one output, in the clear, into new ones and a fee. -/
structure PQSpend where
  version : UInt16
  outputRef : Bytes
  p : Bytes
  wotsRoot : Bytes
  nullifier : Bytes
  hybridSig : Bytes
  outputs : List PQOutput
  fee : UInt64
  blindDiff : List Int
deriving DecidableEq

/-- What `ValidateSpend` rests on: the hash, the matrices, and the classical half of a hybrid
signature, `P` and the 64 byte signature over a message. -/
structure Scheme where
  V : Primitives
  pp : Params
  schnorr : (p msg sig : Bytes) → Bool

/-- The anonymity set, the unspent outputs with their places in it, and what was spent. -/
structure Ledger where
  acc : PQAccum.Accumulator := .new
  utxo : GoMap PQOutput := ∅
  index : GoMap Nat := ∅
  nullifiers : GoMap Bool := ∅

/-- The texts of the ledger wrap one error. -/
def errLedger (text : String) : String := "pqtx: validation failed: " ++ text

/-- A failure under the ledger's own text. -/
def orFail {α : Type} (text : String) : Except String α → Except String α
  | .ok value => .ok value
  | .error _ => .error (errLedger text)

@[simp] theorem orFail_ok {α : Type} {text : String} {outcome : Except String α} {value : α} :
    orFail text outcome = .ok value ↔ outcome = .ok value := by
  cases outcome <;> simp [orFail]

variable (σ : Scheme)

/-! ## Keys and signatures -/

/-- A one-time key binds the classical point and the root of the one-time signature. -/
def hybridPreimage (p r : Bytes) : Bytes := p ++ ascii "Obscura/pq/hybrid/v1" ++ r

/-- `HybridKey`: the key of an output from the two halves. -/
def hybridKeyOf (p r : Bytes) : Bytes := σ.V.blake2b (hybridPreimage p r)

/-- Derived from the root alone, so that each root spends once. -/
def nullifierOf (wotsRoot : Bytes) : Bytes :=
  σ.V.blake2b (ascii "Obscura/pq/nullifier/v1" ++ wotsRoot)

/-- A byte string after its length. -/
def wB (b : Bytes) : Bytes := bigEndian 4 b.length ++ b

/-- `SerializeOutput`: the fields in the order of the record. -/
def serializeOutput (o : PQOutput) : Bytes :=
  bigEndian 2 o.version.toNat ++ wB o.oneTimeKey ++ wB o.commitment ++ wB o.kemCiphertext ++
    wB o.viewTag ++ wB o.encAmount ++ wB o.mac

/-- The signature and the blinding difference are not signed. -/
def PQSpend.coreHash (s : PQSpend) : Bytes :=
  σ.V.blake2b (bigEndian 2 s.version.toNat ++ wB s.outputRef ++ wB s.p ++ wB s.wotsRoot ++
    wB s.nullifier ++ putU64 s.fee.toNat ++ putU64 s.outputs.length ++
    s.outputs.flatMap serializeOutput)

/-- Short reads leave zeros. -/
def readB (input : Bytes) : Option (Bytes × Bytes) :=
  if input = [] then
    none
  else
    let n := ofBigEndian ((input ++ List.replicate 4 0).take 4)
    let rest := input.drop 4
    if 2 ^ 20 < n then none
    else if n = 0 then some ([], rest)
    else if rest = [] then none
    else some ((rest ++ List.replicate n 0).take n, rest.drop n)

/-- Bytes after the two halves are ignored. -/
def parseHybridSig (b : Bytes) : Option HybridSig := do
  let (schnorr, rest) ← readB b
  let (wots, _) ← readB rest
  return { schnorr, wots }

/-- Both halves of the signature, and that the key binds them. -/
def hybridVerify (key p r msg : Bytes) (sig : HybridSig) : Bool :=
  p.length = 32 ∧ r.length = Wots.pubKeySize ∧ sig.schnorr.length = 64 ∧
    hybridKeyOf σ p r = key ∧ σ.schnorr p msg sig.schnorr = true ∧
    Wots.verify σ.V.blake2b r msg sig.wots = true

/-! ## The ledger -/

namespace Ledger

/-- Adds an output to the anonymity set and to the unspent ones. -/
def addOutput (l : Ledger) (o : PQOutput) : Except String Ledger := do
  reject (o.version ≠ version ∨ o.oneTimeKey.length ≠ 32) (errLedger "bad output")
  reject (l.utxo[hexstr o.oneTimeKey]?.isSome) (errLedger "duplicate output key")
  let _ ← orFail "bad commitment" (parseCommitment o.commitment)
  return { l with
    acc := l.acc.add σ.V o.oneTimeKey
    index := l.index.insert (hexstr o.oneTimeKey) l.acc.len
    utxo := l.utxo.insert (hexstr o.oneTimeKey) o }

/-- The membership proof of an unspent output. -/
def prove (l : Ledger) (oneTimeKey : Bytes) : Except String PQAccum.Proof := do
  let idx ← orReject l.index[hexstr oneTimeKey]? (errLedger "unknown output")
  l.acc.prove σ.V idx

/-- An input's commitment less those of the outputs. -/
def subtractAll (acc : Commitment) : List PQOutput → Except String Commitment
  | [] => .ok acc
  | o :: outs => do
      let cOut ← orFail "bad output commitment" (parseCommitment o.commitment)
      subtractAll (acc.sub cOut) outs

/-- Input less outputs and fee is a commitment to zero under the blinding difference, which must
be short. -/
def checkConservation (spent : PQOutput) (s : PQSpend) : Except String Unit := do
  let cIn ← orFail "bad input commitment" (parseCommitment spent.commitment)
  let acc ← subtractAll cIn s.outputs
  let feeC ← commitNoBound σ.pp s.fee.toNat (List.replicate RandLen 0)
  reject (s.blindDiff.length ≠ RandLen) (errLedger "bad blinding witness")
  let maxAbs := (1 + s.outputs.length) * RandB
  reject (∃ di ∈ s.blindDiff, maxAbs < di ∨ di < -maxAbs)
    (errLedger "blinding witness out of bound (inflation)")
  let zero ← commitNoBound σ.pp 0 s.blindDiff
  reject (acc.sub feeC ≠ zero) (errLedger "value not conserved (inflation)")

/-- The new outputs are well formed, and their keys differ from each other and from those held. -/
def checkOutputs (l : Ledger) : (seen : List Bytes) → List PQOutput → Except String Unit
  | _, [] => .ok ()
  | seen, o :: outs => do
      reject (o.version ≠ version ∨ o.oneTimeKey.length ≠ 32) (errLedger "malformed new output")
      reject (hexstr o.oneTimeKey ∈ seen ∨ l.utxo[hexstr o.oneTimeKey]?.isSome)
        (errLedger "duplicate new output key")
      let _ ← orFail "bad new output commitment" (parseCommitment o.commitment)
      checkOutputs l (hexstr o.oneTimeKey :: seen) outs

/-- The checks of a spend against a root of the anonymity set: the output is held and in the set,
its root was not spent, both signatures hold, and no value is created. -/
def validateSpend (l : Ledger) (s : PQSpend) (root : Bytes) (member : Option PQAccum.Proof) :
    Except String Unit := do
  reject (s.version ≠ version) (errLedger "pqtx: wrong version")
  reject (s.outputRef.length ≠ 32 ∨ s.p.length ≠ 32 ∨ s.wotsRoot.length ≠ 32 ∨
    s.nullifier.length ≠ 32) (errLedger "malformed spend")
  let spent ← orReject l.utxo[hexstr s.outputRef]?
    (errLedger "spends nonexistent or already-spent output")
  reject (member.any (PQAccum.verify σ.V root s.outputRef) = false)
    (errLedger "invalid anonymity-set membership proof")
  reject (s.nullifier ≠ nullifierOf σ s.wotsRoot) (errLedger "nullifier not bound to root")
  reject (inSet l.nullifiers (hexstr s.nullifier))
    (errLedger "double-spend (nullifier already seen)")
  let sig ← orReject (parseHybridSig s.hybridSig) (errLedger "malformed signature")
  reject (hybridVerify σ s.outputRef s.p s.wotsRoot (s.coreHash σ) sig = false)
    (errLedger "hybrid spend authorization failed")
  checkConservation σ spent s
  l.checkOutputs [] s.outputs

/-- Stops at the first output that is refused, and keeps those before it. -/
def addOutputs (l : Ledger) : List PQOutput → Except String Unit × Ledger
  | [] => (.ok (), l)
  | o :: outs =>
    match l.addOutput σ o with
    | .error text => (.error text, l)
    | .ok l => addOutputs l outs

/-- The ledger after the nullifier is recorded and the output is gone. -/
def consume (l : Ledger) (s : PQSpend) : Ledger :=
  { l with
    nullifiers := l.nullifiers.insert (hexstr s.nullifier) true
    utxo := l.utxo.erase (hexstr s.outputRef)
    index := l.index.erase (hexstr s.outputRef) }

/-- Nothing is written before the spend has passed. -/
def applySpend (l : Ledger) (s : PQSpend) (root : Bytes) (member : Option PQAccum.Proof) :
    Except String Unit × Ledger :=
  match l.validateSpend σ s root member with
  | .error text => (.error text, l)
  | .ok () => (l.consume s).addOutputs σ s.outputs

end Ledger

/-! ## Runs -/

/-- The calls that change a ledger. -/
inductive Action where
  | addOutput (o : PQOutput)
  | applySpend (s : PQSpend) (root : Bytes) (member : Option PQAccum.Proof)

/-- What was accepted; a spend with the output it spent. -/
inductive Event where
  | funded (o : PQOutput)
  | spent (o : PQOutput) (s : PQSpend)
deriving DecidableEq

/-- One call, and what it made happen. -/
def step (state : Ledger × List Event) : Action → Ledger × List Event
  | .addOutput o =>
    match state.1.addOutput σ o with
    | .ok l => (l, state.2 ++ [.funded o])
    | .error _ => state
  | .applySpend s root member =>
    match state.1.utxo[hexstr s.outputRef]?, state.1.applySpend σ s root member with
    | some o, (.ok (), l) => (l, state.2 ++ [.spent o s])
    | _, (_, l) => (l, state.2)

/-- A ledger from its start. -/
def run (actions : List Action) : Ledger × List Event := actions.foldl (step σ) ({}, [])

/-- The outputs an event created. -/
def Event.created : Event → List PQOutput
  | .funded o => [o]
  | .spent _ s => s.outputs

/-- The spend of an event, if it is one. -/
def Event.spend? : Event → Option PQSpend
  | .funded _ => none
  | .spent _ s => some s

/-- The accepted spends, in order. -/
def spends (events : List Event) : List PQSpend := events.filterMap Event.spend?

/-- The keys of the outputs that were ever created, in order. -/
def addedKeys (events : List Event) : List Bytes :=
  events.flatMap fun e => e.created.map PQOutput.oneTimeKey

/-- A word of an output's commitment. -/
def outWord (j : Option (Fin N1)) (o : PQOutput) : Nat :=
  (parseCommitment o.commitment).toOption.elim 0 fun c => c.word j

/-- How often a 64-bit difference wraps when the outputs are subtracted from a word. -/
def wraps (j : Option (Fin N1)) : Nat → List PQOutput → Nat
  | _, [] => 0
  | c, o :: outs =>
    (if c + Q < outWord j o then 1 else 0) + wraps j (subWord c (outWord j o)) outs

/-- What an event put into the ledger from outside. -/
def Event.funding (j : Option (Fin N1)) : Event → ZMod Q
  | .funded o => outWord j o
  | .spent _ _ => 0

/-- What an event took out of the ledger: the fee under the blinding difference, less `25` for
each wrap. -/
def Event.burnt (j : Option (Fin N1)) : Event → ZMod Q
  | .funded _ => 0
  | .spent o s =>
    j.elim (s.fee.toNat : ZMod Q) (fun _ => 0) + form (σ.pp.row j) s.blindDiff -
      25 * wraps j (outWord j o) s.outputs

/-- The sum of a word over the unspent outputs. -/
def total (j : Option (Fin N1)) (l : Ledger) : ZMod Q :=
  OrdMap.sum (fun o => (outWord j o : ZMod Q)) l.utxo

/-! ## Adding outputs -/

namespace Ledger

variable {σ} {l l' : Ledger} {o : PQOutput} {s : PQSpend}

theorem addOutput_ok : l.addOutput σ o = .ok l' ↔
    (o.version = version ∧ o.oneTimeKey.length = 32) ∧ l.utxo[hexstr o.oneTimeKey]? = none ∧
      (∃ c, parseCommitment o.commitment = .ok c) ∧
      l' = { l with
        acc := l.acc.add σ.V o.oneTimeKey
        index := l.index.insert (hexstr o.oneTimeKey) l.acc.len
        utxo := l.utxo.insert (hexstr o.oneTimeKey) o } := by
  unfold addOutput
  simp only [bind_ok, reject_ok, exists_const, orFail_ok, pure_ok, not_or, ne_eq, not_not,
    Option.not_isSome_iff_eq_none]
  constructor
  · rintro ⟨sized, absent, c, parsed, rfl⟩
    exact ⟨sized, absent, ⟨c, parsed⟩, rfl⟩
  · rintro ⟨sized, absent, ⟨c, parsed⟩, rfl⟩
    exact ⟨sized, absent, c, parsed, rfl⟩

theorem addOutputs_checked {outs : List PQOutput} {seen : List Bytes}
    (checked : l.checkOutputs seen outs = .ok ())
    (inside : ∀ k, l'.utxo[k]? ≠ none → l.utxo[k]? ≠ none ∨ k ∈ seen) :
    (l'.addOutputs σ outs).1 = .ok () := by
  induction outs generalizing l' seen with
  | nil => rfl
  | cons o outs ih =>
    unfold checkOutputs at checked
    simp only [bind_ok, reject_ok, exists_const, orFail_ok, not_or, ne_eq, not_not,
      Option.not_isSome_iff_eq_none] at checked
    obtain ⟨sized, ⟨unseen, absent⟩, c, parsed, rest⟩ := checked
    have free : l'.utxo[hexstr o.oneTimeKey]? = none := by
      by_contra held
      exact (inside _ held).elim (fun held => held absent) unseen
    have added : l'.addOutput σ o = .ok _ :=
      addOutput_ok.mpr ⟨sized, free, ⟨c, parsed⟩, rfl⟩
    unfold addOutputs
    rw [added]
    refine ih rest fun k held => ?_
    rw [OrdMap.lookup_insert] at held
    split_ifs at held with own
    · exact .inr (own ▸ List.mem_cons_self)
    · exact (inside k held).imp id (List.mem_cons_of_mem _)

/-- What an accepted spend passed. -/
structure Valid (σ : Scheme) (l : Ledger) (s : PQSpend) (spent : PQOutput) : Prop where
  found : l.utxo[hexstr s.outputRef]? = some spent
  widths : s.p.length = 32 ∧ s.wotsRoot.length = 32
  nullifier : s.nullifier = nullifierOf σ s.wotsRoot
  fresh : inSet l.nullifiers (hexstr s.nullifier) = false
  key : hybridKeyOf σ s.p s.wotsRoot = s.outputRef
  conserved : checkConservation σ spent s = .ok ()
  outputs : l.checkOutputs [] s.outputs = .ok ()

/-- What an accepted spend says. -/
theorem validateSpend_ok {root : Bytes} {member : Option PQAccum.Proof}
    (valid : l.validateSpend σ s root member = .ok ()) : ∃ spent, Valid σ l s spent := by
  unfold validateSpend at valid
  simp only [bind_ok, reject_ok, exists_const, orReject_ok, not_or, ne_eq, not_not,
    Bool.not_eq_true, Bool.not_eq_false] at valid
  obtain ⟨-, ⟨-, pWidth, rootWidth, -⟩, spent, found, -, nullifier, fresh, sig, -, verified,
    _, conserved, outputs⟩ := valid
  have key : hybridKeyOf σ s.p s.wotsRoot = s.outputRef := by
    unfold hybridVerify at verified
    exact (of_decide_eq_true verified).2.2.2.1
  exact ⟨spent, found, ⟨pWidth, rootWidth⟩, nullifier, fresh, key, conserved, outputs⟩

theorem Valid.added {spent : PQOutput} (passed : Valid σ l s spent) :
    ((l.consume s).addOutputs σ s.outputs).1 = .ok () := by
  refine addOutputs_checked passed.outputs fun k held => .inl ?_
  change (l.utxo.erase (hexstr s.outputRef))[k]? ≠ none at held
  rw [OrdMap.lookup_erase] at held
  split_ifs at held with own
  · exact absurd rfl held
  · exact held

theorem applySpend_cases (l : Ledger) (s : PQSpend) (root : Bytes)
    (member : Option PQAccum.Proof) :
    (∃ text, l.applySpend σ s root member = (.error text, l)) ∨
    (∃ spent, Valid σ l s spent ∧
      ((l.consume s).addOutputs σ s.outputs).1 = .ok () ∧
      l.applySpend σ s root member = (.ok (), ((l.consume s).addOutputs σ s.outputs).2)) := by
  unfold applySpend
  cases valid : l.validateSpend σ s root member with
  | error text => exact .inl ⟨text, rfl⟩
  | ok done =>
    obtain ⟨spent, passed⟩ := validateSpend_ok valid
    exact .inr ⟨spent, passed, passed.added, Prod.ext passed.added rfl⟩

/-! ## Conservation -/

theorem subtractAll_ok {outs : List PQOutput} {c d : Commitment}
    (done : subtractAll c outs = .ok d) (j : Option (Fin N1)) (small : c.word j < 2 ^ 32) :
    ((d.word j : Nat) : ZMod Q) = c.word j - (outs.map fun o => (outWord j o : ZMod Q)).sum +
      25 * wraps j (c.word j) outs ∧ d.word j < 2 ^ 32 := by
  induction outs generalizing c with
  | nil =>
    obtain rfl := Except.ok.inj done
    exact ⟨by simp [wraps], small⟩
  | cons o outs ih =>
    obtain ⟨cOut, parsed, rest⟩ := bind_ok.mp done
    rw [orFail_ok] at parsed
    have word : outWord j o = cOut.word j := by
      rw [outWord, parsed]
      rfl
    have wide := parseCommitment_word parsed j
    have next : (c.sub cOut).word j < 2 ^ 32 := by
      rw [Commitment.sub_word]
      exact (subWord_lt _ _).trans (by norm_num [Q])
    obtain ⟨value, bound⟩ := ih rest next
    refine ⟨?_, bound⟩
    rw [value, Commitment.sub_word, subWord_cast small wide, List.map_cons, List.sum_cons, word,
      wraps, word]
    split_ifs with wrapped
    · push_cast
      ring
    · push_cast
      ring

/-- The words of a spend balance, up to the wraps. -/
theorem conserved_word {spent : PQOutput} (conserved : checkConservation σ spent s = .ok ())
    (j : Option (Fin N1)) :
    (outWord j spent : ZMod Q) = (s.outputs.map fun o => (outWord j o : ZMod Q)).sum +
      (Event.spent spent s).burnt σ j := by
  unfold checkConservation at conserved
  simp only [bind_ok, reject_ok, exists_const, orFail_ok, ne_eq, not_not] at conserved
  obtain ⟨cIn, parsed, acc, subtracted, feeC, fee, -, -, zero, none, balance⟩ := conserved
  have feeSame : feeC = linearMap σ.pp (s.fee.toNat % Q) (List.replicate RandLen 0) := by
    unfold commitNoBound at fee
    exact (Except.ok.inj (reject_bind_ok.mp fee).2).symm
  have zeroSame : zero = linearMap σ.pp (0 % Q) s.blindDiff := by
    unfold commitNoBound at none
    exact (Except.ok.inj (reject_bind_ok.mp none).2).symm
  have word : outWord j spent = cIn.word j := by
    rw [outWord, parsed]
    rfl
  obtain ⟨value, bound⟩ := subtractAll_ok subtracted j (parseCommitment_word parsed j)
  have start : j.elim (s.fee.toNat % Q % Q) (fun _ => 0) < Q := by
    cases j with
    | none => exact Nat.mod_lt _ (by norm_num [Q])
    | some i => exact (by norm_num [Q] : 0 < Q)
  have feeSmall : feeC.word j < Q := by
    rw [feeSame, linearMap_word]
    exact accumulate_lt _ _ start
  have feeValue : ((feeC.word j : Nat) : ZMod Q) =
      j.elim (s.fee.toNat : ZMod Q) fun _ => 0 := by
    rw [feeSame, linearMap_word, accumulate_cast, form_zeros, add_zero]
    cases j with
    | none => simp [ZMod.natCast_mod]
    | some i => simp
  have zeroValue : ((zero.word j : Nat) : ZMod Q) = form (σ.pp.row j) s.blindDiff := by
    rw [zeroSame, linearMap_word, accumulate_cast]
    cases j <;> simp
  have difference := subWord_cast bound (feeSmall.trans (by norm_num [Q]))
  rw [if_neg (by omega), add_zero, ← Commitment.sub_word, balance, zeroValue, feeValue, value]
    at difference
  rw [Event.burnt, word, difference]
  ring

end Ledger

/-- A step with a spend that passes. -/
theorem step_of_valid {σ : Scheme} {l : Ledger} {events : List Event} {s : PQSpend} {root : Bytes}
    {member : Option PQAccum.Proof} {spent : PQOutput}
    (found : l.utxo[hexstr s.outputRef]? = some spent)
    (valid : l.validateSpend σ s root member = .ok ()) :
    step σ (l, events) (.applySpend s root member) =
      (((l.consume s).addOutputs σ s.outputs).2, events ++ [.spent spent s]) := by
  obtain ⟨_, passed⟩ := Ledger.validateSpend_ok valid
  have applied : l.applySpend σ s root member =
      (.ok (), ((l.consume s).addOutputs σ s.outputs).2) := by
    rw [Ledger.applySpend, valid]
    exact Prod.ext passed.added rfl
  unfold step
  dsimp only
  rw [found, applied]

/-! ## What every run keeps -/

/-- The ledger against its history: the anonymity set holds the keys ever added, an unspent output
has its place in it, the nullifiers are those of the spends, and each word balances. -/
structure Books (σ : Scheme) (l : Ledger) (events : List Event) : Prop where
  acc : l.acc = PQAccum.retained σ.V (addedKeys events)
  stored : ∀ (k : Bytes) (o : PQOutput), l.utxo[k]? = some o →
    k = hexstr o.oneTimeKey ∧
      ∃ i, l.index[k]? = some i ∧ (addedKeys events)[i]? = some o.oneTimeKey
  seen : ∀ s ∈ spends events, inSet l.nullifiers (hexstr s.nullifier) = true
  bound : ∀ s ∈ spends events, s.nullifier = nullifierOf σ s.wotsRoot ∧
    hybridKeyOf σ s.p s.wotsRoot = s.outputRef ∧ s.p.length = 32 ∧ s.wotsRoot.length = 32
  once : ((spends events).map PQSpend.wotsRoot).Nodup
  balanced : ∀ j, (events.map (Event.funding j)).sum =
    total j l + (events.map (Event.burnt σ j)).sum

namespace Books

variable {σ} {l l' : Ledger} {events : List Event}

theorem start : Books σ {} [] where
  acc := rfl
  stored := by simp
  seen := by simp [spends]
  bound := by simp [spends]
  once := List.nodup_nil
  balanced := by simp [total]

/-- The ledger, the keys added to it and the sum of its commitments, as outputs come in. -/
structure Holds (σ : Scheme) (l : Ledger) (keys : List Bytes) (sums : Option (Fin N1) → ZMod Q) :
    Prop where
  acc : l.acc = PQAccum.retained σ.V keys
  stored : ∀ (k : Bytes) (o : PQOutput), l.utxo[k]? = some o →
    k = hexstr o.oneTimeKey ∧ ∃ i, l.index[k]? = some i ∧ keys[i]? = some o.oneTimeKey
  sum : ∀ j, total j l = sums j

/-- A new output joins what the ledger holds. -/
theorem Holds.add {keys : List Bytes} {sums : Option (Fin N1) → ZMod Q} {o : PQOutput}
    (holds : Holds σ l keys sums) (added : l.addOutput σ o = .ok l') :
    Holds σ l' (keys ++ [o.oneTimeKey]) (fun j => outWord j o + sums j) ∧
      l'.nullifiers = l.nullifiers := by
  obtain ⟨-, absent, -, rfl⟩ := Ledger.addOutput_ok.mp added
  have length : l.acc.len = keys.length := by
    rw [holds.acc]
    exact List.length_map _
  refine ⟨⟨?_, ?_, fun j => ?_⟩, rfl⟩
  · change l.acc.add σ.V o.oneTimeKey = _
    rw [holds.acc, PQAccum.Accumulator.add, if_neg (by exact Bool.false_ne_true)]
    unfold PQAccum.retained
    rw [List.map_append]
    rfl
  · intro k other found
    dsimp only at found ⊢
    rw [OrdMap.lookup_insert] at found ⊢
    split_ifs at found ⊢ with own
    · obtain rfl := Option.some.inj found
      exact ⟨own.symm, _, rfl, by rw [length, List.getElem?_concat_length]⟩
    · obtain ⟨key, i, index, here⟩ := holds.stored k other found
      exact ⟨key, i, index, by
        rw [List.getElem?_append_left (List.getElem?_eq_some_iff.mp here).1, here]⟩
  · rw [← holds.sum j]
    exact OrdMap.sum_insert _ _ _ absent

/-- So do the outputs of a spend. -/
theorem Holds.addAll {keys : List Bytes} {sums : Option (Fin N1) → ZMod Q} {outs : List PQOutput}
    (holds : Holds σ l keys sums) (added : (l.addOutputs σ outs).1 = .ok ()) :
    Holds σ (l.addOutputs σ outs).2 (keys ++ outs.map PQOutput.oneTimeKey)
        (fun j => (outs.map fun o => (outWord j o : ZMod Q)).sum + sums j) ∧
      (l.addOutputs σ outs).2.nullifiers = l.nullifiers := by
  induction outs generalizing l keys sums with
  | nil => simpa [Ledger.addOutputs] using holds
  | cons o outs ih =>
    unfold Ledger.addOutputs at added ⊢
    cases one : l.addOutput σ o with
    | error text =>
      rw [one] at added
      cases added
    | ok next =>
      rw [one] at added
      obtain ⟨first, same⟩ := holds.add one
      obtain ⟨rest, kept⟩ := ih first added
      refine ⟨⟨?_, ?_, fun j => ?_⟩, kept.trans same⟩
      · rw [rest.acc, List.map_cons, List.append_assoc, List.singleton_append]
      · rw [List.map_cons, ← List.singleton_append, ← List.append_assoc]
        exact rest.stored
      · rw [rest.sum j, List.map_cons, List.sum_cons]
        ring

theorem addedKeys_append (events : List Event) (e : Event) :
    addedKeys (events ++ [e]) = addedKeys events ++ e.created.map PQOutput.oneTimeKey := by
  simp [addedKeys]

/-- A funded output keeps the books. -/
theorem fund (books : Books σ l events) {o : PQOutput} (added : l.addOutput σ o = .ok l') :
    Books σ l' (events ++ [.funded o]) := by
  have holds : Holds σ l (addedKeys events) (fun j => total j l) :=
    ⟨books.acc, books.stored, fun _ => rfl⟩
  obtain ⟨after, same⟩ := holds.add added
  have unspent : spends (events ++ [.funded o]) = spends events := by
    simp [spends, Event.spend?]
  constructor
  case acc => rw [after.acc, addedKeys_append]; rfl
  case stored => rw [addedKeys_append]; exact after.stored
  case seen => rw [unspent, same]; exact books.seen
  case bound => rw [unspent]; exact books.bound
  case once => rw [unspent]; exact books.once
  case balanced =>
    intro j
    rw [List.map_append, List.map_append, List.sum_append, List.sum_append, books.balanced j,
      after.sum j]
    simp only [List.map_cons, List.map_nil, List.sum_cons, List.sum_nil, Event.funding,
      Event.burnt]
    ring

/-- A spend keeps the books. -/
theorem spend (books : Books σ l events) {s : PQSpend} {spent : PQOutput}
    (valid : Ledger.Valid σ l s spent) (added : ((l.consume s).addOutputs σ s.outputs).1 = .ok ()) :
    Books σ ((l.consume s).addOutputs σ s.outputs).2 (events ++ [.spent spent s]) := by
  have left : ∀ j, total j l = outWord j spent + total j (l.consume s) := by
    intro j
    have absent : (l.utxo.erase (hexstr s.outputRef))[hexstr s.outputRef]? = none := by
      rw [OrdMap.lookup_erase, if_pos rfl]
    have back := OrdMap.sum_insert (fun o => (outWord j o : ZMod Q)) _ spent absent
    rw [OrdMap.insert_erase l.utxo valid.found] at back
    exact back
  have holds : Holds σ (l.consume s) (addedKeys events) (fun j => total j (l.consume s)) := by
    refine ⟨books.acc, fun k o found => ?_, fun _ => rfl⟩
    change (l.utxo.erase (hexstr s.outputRef))[k]? = some o at found
    change k = _ ∧ ∃ i, (l.index.erase (hexstr s.outputRef))[k]? = some i ∧ _
    rw [OrdMap.lookup_erase] at found ⊢
    split_ifs at found ⊢ with own
    exact books.stored k o found
  obtain ⟨after, same⟩ := holds.addAll added
  have more : spends (events ++ [.spent spent s]) = spends events ++ [s] := by
    simp [spends, Event.spend?]
  have marked : ∀ key, inSet (l.consume s).nullifiers key = true ↔
      hexstr s.nullifier = key ∨ inSet l.nullifiers key = true := by
    intro key
    unfold inSet Ledger.consume
    dsimp only
    rw [OrdMap.lookup_insert]
    split_ifs with own
    · simp [own]
    · simp [own]
  constructor
  case acc => rw [after.acc, addedKeys_append]; rfl
  case stored => rw [addedKeys_append]; exact after.stored
  case seen =>
    rw [more, same]
    intro other member
    rw [marked]
    rcases List.mem_append.mp member with before | last
    · exact .inr (books.seen other before)
    · exact .inl (List.mem_singleton.mp last ▸ rfl)
  case bound =>
    rw [more]
    exact List.forall_mem_append.mpr ⟨books.bound, by
      simpa using ⟨valid.nullifier, valid.key, valid.widths⟩⟩
  case once =>
    rw [more, List.map_append]
    refine List.nodup_append.mpr ⟨books.once, List.nodup_singleton _, ?_⟩
    intro root member other here again
    rw [List.map_singleton, List.mem_singleton] at here
    obtain ⟨before, spentBefore, rfl⟩ := List.mem_map.mp member
    -- the same root has the same nullifier, which was seen
    have nullifiers : before.nullifier = s.nullifier := by
      rw [(books.bound before spentBefore).1, valid.nullifier, again, here]
    have held := books.seen before spentBefore
    rw [nullifiers, valid.fresh] at held
    cases held
  case balanced =>
    intro j
    rw [List.map_append, List.map_append, List.sum_append, List.sum_append, books.balanced j,
      after.sum j, left j, Ledger.conserved_word valid.conserved j]
    simp only [List.map_cons, List.map_nil, List.sum_cons, List.sum_nil, Event.funding]
    ring

/-- Every action keeps the books. -/
theorem step {state : Ledger × List Event} (books : Books σ state.1 state.2) (a : Action) :
    Books σ (step σ state a).1 (step σ state a).2 := by
  cases a with
  | addOutput o =>
    unfold Pqtx.step
    dsimp only
    cases added : state.1.addOutput σ o with
    | error text => exact books
    | ok l => exact books.fund added
  | applySpend s root member =>
    unfold Pqtx.step
    dsimp only
    obtain ⟨text, refused⟩ | ⟨spent, valid, added, applied⟩ :=
      Ledger.applySpend_cases state.1 s root member
    · rw [refused]
      cases state.1.utxo[hexstr s.outputRef]? <;> exact books
    · rw [valid.found, applied]
      exact books.spend valid added

theorem run (actions : List Action) : Books σ (run σ actions).1 (run σ actions).2 := by
  induction actions using List.reverseRecOn with
  | nil => exact start
  | append_singleton actions a ih =>
    rw [Pqtx.run, List.foldl_append]
    exact ih.step a

end Books

theorem wraps_canonical (j : Option (Fin N1)) (c : Nat) {outs : List PQOutput}
    (canonical : ∀ o ∈ outs, outWord j o < Q) : wraps j c outs = 0 := by
  induction outs generalizing c with
  | nil => rfl
  | cons o outs ih =>
    have small := canonical o List.mem_cons_self
    have rest := fun o member => canonical o (List.mem_cons_of_mem _ member)
    rw [wraps, if_neg (by omega), ih _ rest]

theorem hybridPreimage_injective {p p' r r' : Bytes} (width : p.length = 32)
    (width' : p'.length = 32) (same : hybridPreimage p r = hybridPreimage p' r') : r = r' := by
  unfold hybridPreimage at same
  exact (List.append_inj same (by rw [List.length_append, List.length_append, width, width'])).2

/-- After any sequence of funding and spending, refused or not: no root was spent twice; two
spends of one output show a collision of the hash; every unspent output, of at most `2 ^ 40`
ever added, has a membership proof that verifies under the root; and word by word the funded
commitments are the unspent ones and what was burnt. A refused action changes nothing. -/
theorem ledger_run (width : ∀ data, (σ.V.blake2b data).length = 32) (actions : List Action) :
    ((spends (run σ actions).2).map PQSpend.wotsRoot).Nodup ∧
    (spends (run σ actions).2).Pairwise (fun s s' => s.outputRef = s'.outputRef →
      hybridPreimage s.p s.wotsRoot ≠ hybridPreimage s'.p s'.wotsRoot ∧
        σ.V.blake2b (hybridPreimage s.p s.wotsRoot) =
          σ.V.blake2b (hybridPreimage s'.p s'.wotsRoot)) ∧
    ((addedKeys (run σ actions).2).length ≤ PQAccum.maxProofSize →
      ∀ (k : Bytes) (o : PQOutput), (run σ actions).1.utxo[k]? = some o →
        ∃ proof, (run σ actions).1.prove σ o.oneTimeKey = .ok proof ∧
          PQAccum.verify σ.V ((run σ actions).1.acc.root σ.V) o.oneTimeKey proof = true) ∧
    (∀ j, ((run σ actions).2.map (Event.funding j)).sum =
      total j (run σ actions).1 + ((run σ actions).2.map (Event.burnt σ j)).sum) ∧
    ∀ s root member, ((run σ actions).1.applySpend σ s root member).1 ≠ .ok () →
      ((run σ actions).1.applySpend σ s root member).2 = (run σ actions).1 := by
  have books := @Books.run σ actions
  refine ⟨books.once, ?_, fun few k o unspent => ?_, books.balanced, fun s root member failed => ?_⟩
  · have apart := List.pairwise_map.mp books.once
    refine apart.imp_of_mem fun {s s'} here there roots same => ?_
    obtain ⟨-, key, pWidth, -⟩ := books.bound s here
    obtain ⟨-, key', pWidth', -⟩ := books.bound s' there
    exact ⟨fun equal => roots (hybridPreimage_injective pWidth pWidth' equal),
      (key.trans same).trans key'.symm⟩
  · obtain ⟨rfl, i, index, here⟩ := books.stored k o unspent
    obtain ⟨inside, item⟩ := List.getElem?_eq_some_iff.mp here
    obtain ⟨proof, proved, verified, -⟩ := PQAccum.prove_verified width inside few
    refine ⟨proof, ?_, ?_⟩
    · unfold Ledger.prove
      rw [index, books.acc]
      exact proved
    · rw [books.acc, ← item]
      exact verified
  · obtain ⟨text, refused⟩ | ⟨spent, valid, added, applied⟩ :=
      Ledger.applySpend_cases (run σ actions).1 s root member
    · rw [refused]
    · rw [applied] at failed
      exact absurd rfl failed

namespace Inflating

/-- A hash with one value, under which every signature is accepted, and matrices with a short
relation: the binding row sends two and minus one to zero, the value row sends them to five. -/
def scheme : Scheme :=
  ⟨Testnet.primitives fun _ => List.replicate 32 9, ⟨fun _ => [1, 2], [3, 1]⟩, fun _ _ _ => true⟩

/-- The encoded commitment with one word in the binding part. -/
def encoded (word value : Nat) : Bytes :=
  (List.replicate N1 (Wots.le32 word)).flatten ++ Wots.le32 value

/-- The coefficients of a vector that is zero from the third on. -/
def vector (x y : Int) : List Int := x :: y :: List.replicate (RandLen - 2) 0

/-- An output of five under the first unit vector. -/
def first : PQOutput := ⟨version, List.replicate 32 9, encoded 1 8, [], [], [], []⟩

/-- An output of nine under the second unit vector. -/
def second : PQOutput := ⟨version, bigEndian 32 7, encoded 2 10, [], [], [], []⟩

/-- The first output pays the second one and a fee of one: five more than it holds, which the
blinding difference covers. -/
def spend : PQSpend where
  version := version
  outputRef := first.oneTimeKey
  p := List.replicate 32 1
  wotsRoot := List.replicate 32 9
  nullifier := List.replicate 32 9
  hybridSig := wB (List.replicate 64 0) ++ wB (List.replicate Wots.sigSize 0)
  outputs := [second]
  fee := 1
  blindDiff := vector (-1) 0

/-- Two outputs funded, and the first spent. -/
def actions : List Action :=
  [.addOutput first, .applySpend spend (List.replicate 32 9) (some ⟨0, 1, []⟩)]

/-- The ledger that holds the first output. -/
def funding : Ledger := (run scheme [.addOutput first]).1

theorem parse_first : parseCommitment first.commitment = .ok ⟨fun _ => 1, 8⟩ := by
  have words : ∀ i : Fin N1, le32At first.commitment i = 1 := by decide +kernel
  have value : le32At first.commitment N1 = 8 := by decide +kernel
  refine reject_bind_ok.mpr ⟨by decide +kernel, ?_⟩
  rw [value, funext words]
  rfl

theorem parse_second : parseCommitment second.commitment = .ok ⟨fun _ => 2, 10⟩ := by
  have words : ∀ i : Fin N1, le32At second.commitment i = 2 := by decide +kernel
  have value : le32At second.commitment N1 = 10 := by decide +kernel
  refine reject_bind_ok.mpr ⟨by decide +kernel, ?_⟩
  rw [value, funext words]
  rfl

/-- The spend of the run conserves the words. -/
theorem conserved : Ledger.checkConservation scheme first spend = .ok () := by
  have subtracted : Ledger.subtractAll ⟨fun _ => 1, 8⟩ [second] =
      .ok ((⟨fun _ => 1, 8⟩ : Commitment).sub ⟨fun _ => 2, 10⟩) :=
    bind_ok.mpr ⟨_, orFail_ok.mpr parse_second, rfl⟩
  have fee : commitNoBound scheme.pp spend.fee.toNat (List.replicate RandLen 0) =
      .ok (linearMap scheme.pp (spend.fee.toNat % Q) (List.replicate RandLen 0)) :=
    reject_bind_ok.mpr ⟨not_not.mpr List.length_replicate, rfl⟩
  have length : spend.blindDiff.length = RandLen := by decide +kernel
  have bounded : ¬ ∃ di ∈ spend.blindDiff,
      (1 + spend.outputs.length) * RandB < di ∨ di < -((1 + spend.outputs.length) * RandB) := by
    decide +kernel
  have none : commitNoBound scheme.pp 0 spend.blindDiff =
      .ok (linearMap scheme.pp (0 % Q) spend.blindDiff) :=
    reject_bind_ok.mpr ⟨not_not.mpr length, rfl⟩
  have word : subWord (subWord 1 2) (accumulate [1, 2] (List.replicate RandLen 0) 0) =
      accumulate [1, 2] spend.blindDiff 0 := by decide +kernel
  have value : subWord (subWord 8 10) (accumulate [3, 1] (List.replicate RandLen 0)
      (spend.fee.toNat % Q % Q)) = accumulate [3, 1] spend.blindDiff (0 % Q % Q) := by
    decide +kernel
  have balance : ((⟨fun _ => 1, 8⟩ : Commitment).sub ⟨fun _ => 2, 10⟩).sub
      (linearMap scheme.pp (spend.fee.toNat % Q) (List.replicate RandLen 0)) =
        linearMap scheme.pp (0 % Q) spend.blindDiff :=
    congrArg₂ Commitment.mk (funext fun _ => word) value
  exact bind_ok.mpr ⟨_, orFail_ok.mpr parse_first, bind_ok.mpr ⟨_, subtracted,
    bind_ok.mpr ⟨_, fee, reject_bind_ok.mpr ⟨not_not.mpr length, reject_bind_ok.mpr ⟨bounded,
      bind_ok.mpr ⟨_, none, reject_ok.mpr (not_not.mpr balance)⟩⟩⟩⟩⟩⟩

/-- The spend of the run is accepted. -/
theorem validated : funding.validateSpend scheme spend (List.replicate 32 9) (some ⟨0, 1, []⟩) =
    .ok () := by
  refine reject_bind_ok.mpr ⟨by decide +kernel, reject_bind_ok.mpr ⟨by decide +kernel,
    bind_ok.mpr ⟨first, orReject_ok.mpr (by decide +kernel), reject_bind_ok.mpr
      ⟨by decide +kernel, reject_bind_ok.mpr ⟨by decide +kernel, reject_bind_ok.mpr
        ⟨by decide +kernel, bind_ok.mpr ⟨⟨List.replicate 64 0, List.replicate Wots.sigSize 0⟩,
          orReject_ok.mpr (by decide +kernel), reject_bind_ok.mpr ⟨by decide +kernel,
            bind_ok.mpr ⟨(), conserved, by decide +kernel⟩⟩⟩⟩⟩⟩⟩⟩⟩

/-- What the run leaves. -/
theorem ran : run scheme actions = (((funding.consume spend).addOutputs scheme spend.outputs).2,
    [.funded first] ++ [.spent first spend]) := by
  have events : (run scheme [.addOutput first]).2 = [.funded first] := by decide +kernel
  have funds : run scheme [.addOutput first] = (funding, [.funded first]) := by
    rw [funding, ← events]
  have found : funding.utxo[hexstr spend.outputRef]? = some first := by decide +kernel
  have last : run scheme actions = step scheme (run scheme [.addOutput first])
      (.applySpend spend (List.replicate 32 9) (some ⟨0, 1, []⟩)) := by
    rw [actions, run, run, List.foldl_cons, List.foldl_cons, List.foldl_nil, List.foldl_cons,
      List.foldl_nil]
  rw [last, funds, step_of_valid found validated]

/-- A funded output is spent; its word is that of what is left, the fee and the blinding. -/
theorem ledger_run_of_spend :
    (spends (run scheme actions).2).map PQSpend.wotsRoot = [List.replicate 32 9] ∧
      ((run scheme actions).2.map (Event.funding none)).sum =
        total none (run scheme actions).1 +
          ((run scheme actions).2.map (Event.burnt scheme none)).sum := by
  refine ⟨by rw [ran]; rfl, ?_⟩
  exact (ledger_run scheme (fun _ => List.length_replicate) actions).2.2.2.1 none

end Inflating

end Obscura.Pqtx
