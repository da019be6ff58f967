import Mathlib.Algebra.BigOperators.Group.List.Basic
import Mathlib.Tactic.FieldSimp
import Mathlib.Tactic.Module
import Obscura.Commit.PaymentProof

/-! # The range proof

A commitment is split into one commitment for each of 64 bits, and every one of them comes with
a proof that it hides zero or the bit's weight: two Schnorr proofs whose challenges add up to
the hash, one of them simulated. Two accepted proofs of a bit with the same first messages and
other challenges differ in the challenge of one branch, which opens the commitment there, so
that the openings of the bits add up to an opening of the whole to a number of 64 bits.
-/

namespace Obscura.Range

open Wire Payment ChaumPedersen Numerals

/-- Amounts have 64 bits. -/
def rangeBits : Nat := 64

/-- The challenges and responses of the two branches, encoded. -/
structure OrProof where
  E0 : Bytes
  E1 : Bytes
  S0 : Bytes
  S1 : Bytes

/-- A commitment to each bit, and a proof that it is one. -/
structure RangeProof where
  bitComms : List Bytes
  orProofs : List OrProof

/-- The random scalars for one bit. -/
structure BitCoins (L : Nat) where
  r : ZMod L
  k : ZMod L
  s : ZMod L
  e : ZMod L

variable {L : Nat} {M : Type} [Fact L.Prime] [AddCommGroup M] [Module (ZMod L) M]
  (S : Suite L M)

/-- The weight of a bit. -/
def powerOfTwoScalar (i : Nat) : ZMod L := 2 ^ i

/-- The point of the second branch: the commitment less the weight of its bit. -/
def lessWeight (i : Nat) (Ci : M) : M := Ci - powerOfTwoScalar (L := L) i • S.hPoint

/-- The challenge over both statements and both commitments. -/
def orChallenge (P0 P1 T0 T1 : M) : ZMod L :=
  S.hashToScalar S.netDom [S.pointBytes P0, S.pointBytes P1, S.pointBytes T0, S.pointBytes T1]

/-! ## The prover -/

/-- The branch `realBranch` is proved with the secret `x`, the other one simulated. -/
def proveOR (P0 P1 : M) (x : ZMod L) (realBranch : Bool) (coins : BitCoins L) : OrProof :=
  let simulated := coins.s • S.basePoint - coins.e • (if realBranch then P0 else P1)
  let T := coins.k • S.basePoint
  let eFull := if realBranch then orChallenge S P0 P1 simulated T
    else orChallenge S P0 P1 T simulated
  let e := eFull - coins.e
  let s := coins.k + e * x
  if realBranch then
    ⟨S.scalarBytes coins.e, S.scalarBytes e, S.scalarBytes coins.s, S.scalarBytes s⟩
  else
    ⟨S.scalarBytes e, S.scalarBytes coins.e, S.scalarBytes s, S.scalarBytes coins.s⟩

/-- The commitment to a bit. -/
def bitComm (i : Nat) (bit : Bool) (r : ZMod L) : M :=
  if bit then powerOfTwoScalar (L := L) i • S.hPoint + r • S.basePoint else r • S.basePoint

/-- One round of the prover's loop. -/
def proveBit (v : UInt64) (coins : Nat → BitCoins L) (built : M × ZMod L × RangeProof) (i : Nat) :
    M × ZMod L × RangeProof :=
  let bit := v.toNat.testBit i
  let Ci := bitComm S i bit (coins i).r
  let orProof := proveOR S Ci (lessWeight S i Ci) (coins i).r bit (coins i)
  (built.1 + Ci, built.2.1 + (coins i).r,
    ⟨built.2.2.bitComms ++ [S.pointBytes Ci], built.2.2.orProofs ++ [orProof]⟩)

/-- The commitment, its blinding and the proof. -/
def proveRange (v : UInt64) (coins : Nat → BitCoins L) : M × ZMod L × RangeProof :=
  (List.range rangeBits).foldl (proveBit S v coins) (0, 0, ⟨[], []⟩)

/-! ## The verifier -/

section Verify

variable [DecidableEq M]

/-- The scalars of the proof of one bit. -/
structure OrAnswer (L : Nat) where
  e0 : ZMod L
  e1 : ZMod L
  s0 : ZMod L
  s1 : ZMod L

/-- The scalars of a proof, where all four decode. -/
def OrProof.answer (pf : OrProof) : Option (OrAnswer L) := do
  let e0 ← S.scalarSetBytes pf.E0
  let e1 ← S.scalarSetBytes pf.E1
  let s0 ← S.scalarSetBytes pf.S0
  let s1 ← S.scalarSetBytes pf.S1
  pure ⟨e0, e1, s0, s1⟩

/-- The first messages that answers belong to. -/
def OrAnswer.first (a : OrAnswer L) (P0 P1 : M) : M × M :=
  (committed S.basePoint P0 a.e0 a.s0, committed S.basePoint P1 a.e1 a.s1)

/-- The challenge that the branches share. -/
def OrAnswer.challenge (a : OrAnswer L) : ZMod L := a.e0 + a.e1

/-- Both branches hold and their challenges add up to the hash. -/
def verifyOR (P0 P1 : M) (pf : OrProof) : Bool :=
  match pf.answer S with
  | none => false
  | some a =>
    let (T0, T1) := a.first S P0 P1
    decide (orChallenge S P0 P1 T0 T1 = a.challenge)

/-- The loop of the verifier from the bit `i` on, with the sum of the commitments so far. -/
def verifyBits : (i : Nat) → List (Bytes × OrProof) → M → Option M
  | _, [], sum => some sum
  | i, (bitComm, orProof) :: rest, sum =>
    match S.pointSetBytes bitComm with
    | none => none
    | some Ci =>
      if !verifyOR S Ci (lessWeight S i Ci) orProof then
        none
      else
        verifyBits (i + 1) rest (sum + Ci)

/-- Each bit is one, and the weighted commitments add up to the value's. -/
def verifyRange (C : M) (proof : Option RangeProof) : Bool :=
  match proof with
  | none => false
  | some proof =>
    if proof.bitComms.length ≠ rangeBits ∨ proof.orProofs.length ≠ rangeBits then
      false
    else
      match verifyBits S 0 (proof.bitComms.zip proof.orProofs) 0 with
      | none => false
      | some sum => decide (sum = C)

end Verify

/-! ## Completeness -/

section Completeness

variable {S}

theorem bitComm_branch (i : Nat) (bit : Bool) (r : ZMod L) :
    (if bit then lessWeight S i (bitComm S i bit r) else bitComm S i bit r) =
      r • S.basePoint := by
  cases bit with
  | false => rfl
  | true =>
    change (powerOfTwoScalar i • S.hPoint + r • S.basePoint) - powerOfTwoScalar i • S.hPoint = _
    exact add_sub_cancel_left _ _

/-- The first messages of the prover: one simulated, one with a nonce. -/
def proverFirst (S : Suite L M) (P0 P1 : M) (bit : Bool) (coins : BitCoins L) : M × M :=
  if bit then (committed S.basePoint P0 coins.e coins.s, coins.k • S.basePoint)
  else (coins.k • S.basePoint, committed S.basePoint P1 coins.e coins.s)

theorem answer_proveOR {P0 P1 : M} {x : ZMod L} (bit : Bool)
    (secret : (if bit then P1 else P0) = x • S.basePoint) (coins : BitCoins L) :
    ∃ a, (proveOR S P0 P1 x bit coins).answer S = some a ∧
      a.first S P0 P1 = proverFirst S P0 P1 bit coins ∧
      a.challenge = orChallenge S P0 P1 (proverFirst S P0 P1 bit coins).1
        (proverFirst S P0 P1 bit coins).2 := by
  have real : ∀ e : ZMod L, committed S.basePoint (x • S.basePoint) e (coins.k + e * x) =
      coins.k • S.basePoint := fun e => by
    rw [add_comm]
    exact committed_respond S.basePoint e x coins.k
  cases bit with
  | false =>
    change P0 = _ at secret
    refine ⟨_, by simp only [proveOR, OrProof.answer, S.scalarSetBytes_scalarBytes,
      Option.bind_eq_bind, Option.bind_some, Option.pure_def, Bool.false_eq_true, if_false]; rfl,
      ?_, ?_⟩
    · rw [OrAnswer.first, secret]
      exact Prod.ext (real _) rfl
    · exact sub_add_cancel _ _
  | true =>
    change P1 = _ at secret
    refine ⟨_, by simp only [proveOR, OrProof.answer, S.scalarSetBytes_scalarBytes,
      Option.bind_eq_bind, Option.bind_some, Option.pure_def, if_true]; rfl, ?_, ?_⟩
    · rw [OrAnswer.first, secret]
      exact Prod.ext rfl (real _)
    · exact add_sub_cancel _ _

theorem verifyOR_proveOR [DecidableEq M] {P0 P1 : M} {x : ZMod L} (bit : Bool)
    (secret : (if bit then P1 else P0) = x • S.basePoint) (coins : BitCoins L) :
    verifyOR S P0 P1 (proveOR S P0 P1 x bit coins) = true := by
  obtain ⟨a, read, first, challenge⟩ := answer_proveOR bit secret coins
  rw [verifyOR, read]
  dsimp only
  rw [first, challenge]
  exact decide_eq_true rfl

variable (v : UInt64) (coins : Nat → BitCoins L)

/-- The commitment to a bit of the value. -/
def commAt (S : Suite L M) (v : UInt64) (coins : Nat → BitCoins L) (i : Nat) : M :=
  bitComm S i (v.toNat.testBit i) (coins i).r

/-- The honest proof of bit `i`. -/
def orProofAt (S : Suite L M) (v : UInt64) (coins : Nat → BitCoins L) (i : Nat) : OrProof :=
  proveOR S (commAt S v coins i) (lessWeight S i (commAt S v coins i)) (coins i).r
    (v.toNat.testBit i) (coins i)

theorem foldl_proveBit (built : M × ZMod L × RangeProof) (bits : List Nat) :
    bits.foldl (proveBit S v coins) built =
      (built.1 + (bits.map (commAt S v coins)).sum,
        built.2.1 + (bits.map fun i => (coins i).r).sum,
        ⟨built.2.2.bitComms ++ bits.map fun i => S.pointBytes (commAt S v coins i),
          built.2.2.orProofs ++ bits.map (orProofAt S v coins)⟩) := by
  induction bits generalizing built with
  | nil => simp
  | cons i bits ih =>
    rw [List.foldl_cons, ih]
    simp only [proveBit, List.map_cons, List.sum_cons, List.append_assoc, List.singleton_append,
      add_assoc]
    rfl

theorem proveRange_eq :
    proveRange S v coins =
      (((List.range rangeBits).map (commAt S v coins)).sum,
        ((List.range rangeBits).map fun i => (coins i).r).sum,
        ⟨(List.range rangeBits).map fun i => S.pointBytes (commAt S v coins i),
          (List.range rangeBits).map (orProofAt S v coins)⟩) := by
  rw [proveRange, foldl_proveBit]
  simp only [zero_add, List.nil_append]

theorem verifyBits_prove [DecidableEq M] (i n : Nat) (sum : M) :
    verifyBits S i ((List.range' i n).map fun j =>
        (S.pointBytes (commAt S v coins j), orProofAt S v coins j)) sum =
      some (sum + ((List.range' i n).map (commAt S v coins)).sum) := by
  induction n generalizing i sum with
  | zero => simp [verifyBits]
  | succ n ih =>
    have accepted : verifyOR S (commAt S v coins i) (lessWeight S i (commAt S v coins i))
        (orProofAt S v coins i) = true :=
      verifyOR_proveOR _ (bitComm_branch i _ _) (coins i)
    rw [List.range'_succ, List.map_cons, List.map_cons, List.sum_cons, verifyBits,
      S.pointSetBytes_pointBytes]
    dsimp only
    rw [accepted, ih, add_assoc]
    rfl

theorem verifyRange_proveRange [DecidableEq M] :
    verifyRange S (proveRange S v coins).1 (some (proveRange S v coins).2.2) = true := by
  have bits := verifyBits_prove (S := S) v coins 0 rangeBits 0
  rw [zero_add, ← List.range_eq_range'] at bits
  rw [proveRange_eq, verifyRange]
  dsimp only
  rw [List.length_map, List.length_map, List.length_range, if_neg (by simp), List.zip_map', bits]
  exact decide_eq_true rfl

end Completeness

/-! ## Openings -/

/-- The number with the given bits from `i` on. -/
def valueFrom : (i : Nat) → List Bool → Nat
  | _, [] => 0
  | i, bit :: rest => (if bit then 2 ^ i else 0) + valueFrom (i + 1) rest

theorem valueFrom_le (i : Nat) (bits : List Bool) :
    valueFrom i bits + 2 ^ i ≤ 2 ^ (i + bits.length) := by
  induction bits generalizing i with
  | nil => simp [valueFrom]
  | cons bit bits ih =>
    have rest := ih (i + 1)
    have double : 2 ^ (i + 1) = 2 * 2 ^ i := pow_succ' 2 i
    have sum : i + 1 + bits.length = i + (bits.length + 1) := by omega
    rw [sum] at rest
    rw [valueFrom, List.length_cons]
    split_ifs
    · omega
    · omega

/-- The value of a run of bits. -/
theorem valueFrom_testBit (v i n : Nat) :
    valueFrom i ((List.range' i n).map v.testBit) = v / 2 ^ i % 2 ^ n * 2 ^ i := by
  induction n generalizing i with
  | zero => simp [valueFrom, Nat.mod_one]
  | succ n ih =>
    have bit : (if v.testBit i then 2 ^ i else 0) = v / 2 ^ i % 2 * 2 ^ i := by
      rw [← Nat.toNat_testBit]
      cases v.testBit i with
      | false => simp
      | true => simp
    have step : v / 2 ^ i % 2 ^ (n + 1) = v / 2 ^ i % 2 + 2 * (v / 2 ^ i / 2 % 2 ^ n) := by
      rw [pow_succ', Nat.mod_mul]
    rw [List.range'_succ, List.map_cons, valueFrom, ih, bit, step, Nat.div_div_eq_div_mul,
      ← pow_succ]
    rw [pow_succ]
    ring

/-- The sum of the commitments to the bits from `i` on. -/
def commsFrom : (i : Nat) → List (Bool × ZMod L) → M
  | _, [] => 0
  | i, (bit, r) :: rest => bitComm S i bit r + commsFrom (i + 1) rest

theorem commsFrom_eq (i : Nat) (opened : List (Bool × ZMod L)) :
    commsFrom S i opened = (valueFrom i (opened.map Prod.fst) : ZMod L) • S.hPoint +
      (opened.map Prod.snd).sum • S.basePoint := by
  induction opened generalizing i with
  | nil => simp [commsFrom, valueFrom]
  | cons opening opened ih =>
    obtain ⟨bit, r⟩ := opening
    rw [commsFrom, ih, List.map_cons, List.map_cons, valueFrom, List.sum_cons]
    cases bit with
    | false =>
      simp only [bitComm, Bool.false_eq_true, if_false, zero_add]
      module
    | true =>
      simp only [bitComm, if_true, powerOfTwoScalar]
      push_cast
      module

theorem commsFrom_range (v : UInt64) (coins : Nat → BitCoins L) (i n : Nat) :
    commsFrom S i ((List.range' i n).map fun j => (v.toNat.testBit j, (coins j).r)) =
      ((List.range' i n).map (commAt S v coins)).sum := by
  induction n generalizing i with
  | zero => rfl
  | succ n ih =>
    rw [List.range'_succ, List.map_cons, List.map_cons, List.sum_cons, commsFrom, ih]
    rfl

theorem proveRange_commitment (v : UInt64) (coins : Nat → BitCoins L) :
    (proveRange S v coins).1 =
      (v.toNat : ZMod L) • S.hPoint + (proveRange S v coins).2.1 • S.basePoint := by
  have sum := commsFrom_eq S 0
    ((List.range' 0 rangeBits).map fun j => (v.toNat.testBit j, (coins j).r))
  have word : v.toNat % 2 ^ rangeBits = v.toNat := Nat.mod_eq_of_lt v.toNat_lt
  rw [commsFrom_range, List.map_map, List.map_map] at sum
  change _ = (valueFrom 0 ((List.range' 0 rangeBits).map v.toNat.testBit) : ZMod L) • _ + _ at sum
  rw [valueFrom_testBit, pow_zero, Nat.div_one, mul_one, word, ← List.range_eq_range'] at sum
  rw [proveRange_eq]
  exact sum

/-! ## Extraction -/

section Extraction

/-- The same group with another hash function. -/
def withHash (hash : Bytes → List Bytes → ZMod L) : Suite L M := { S with hashToScalar := hash }

/-- The branch in which the challenges differ, with the secret that it gives. -/
def extractBit (a a' : OrAnswer L) : Bool × ZMod L :=
  if a.e0 ≠ a'.e0 then
    (false, extract a.e0 a.s0 a'.e0 a'.s0)
  else
    (true, extract a.e1 a.s1 a'.e1 a'.s1)

/-- The bit and the blinding that two proofs with one first message give away. -/
def extractProof (pf pf' : OrProof) : Bool × ZMod L :=
  match pf.answer S, pf'.answer S with
  | some a, some a' => extractBit a a'
  | _, _ => (false, 0)

/-- Two proofs of a bit have the same first messages and other challenges. -/
def Fork (i : Nat) (bitComm : Bytes) (pf pf' : OrProof) : Prop :=
  ∀ Ci a a', S.pointSetBytes bitComm = some Ci → pf.answer S = some a → pf'.answer S = some a' →
    a.first S Ci (lessWeight S i Ci) = a'.first S Ci (lessWeight S i Ci) ∧
      a.challenge ≠ a'.challenge

variable {S}

theorem extractBit_opens {i : Nat} {Ci : M} {a a' : OrAnswer L}
    (first : a.first S Ci (lessWeight S i Ci) = a'.first S Ci (lessWeight S i Ci))
    (apart : a.challenge ≠ a'.challenge) :
    Ci = bitComm S i (extractBit a a').1 (extractBit a a').2 := by
  obtain ⟨zero, one⟩ := Prod.mk.inj first
  unfold extractBit
  by_cases same : a.e0 = a'.e0
  · have differ : a.e1 ≠ a'.e1 := fun equal => apart (by
      rw [OrAnswer.challenge, OrAnswer.challenge, same, equal])
    have opened := extract_smul differ one
    rw [if_neg (not_not.mpr same)]
    change Ci = powerOfTwoScalar i • S.hPoint + _ • S.basePoint
    rw [← opened, lessWeight, add_sub_cancel]
  · rw [if_pos same]
    exact extract_smul same zero

theorem verifyOR_answer {P0 P1 : M} {pf : OrProof} (accepted : verifyOR S P0 P1 pf = true) :
    ∃ a, pf.answer S = some a := by
  unfold verifyOR at accepted
  cases read : pf.answer S with
  | none =>
    rw [read] at accepted
    exact absurd accepted Bool.false_ne_true
  | some a => exact ⟨a, rfl⟩

/-- What the check of the first bit says. -/
theorem verifyBits_cons {i : Nat} {bytes : Bytes} {pf : OrProof} {rest : List (Bytes × OrProof)}
    {sum total : M} (accepted : verifyBits S i ((bytes, pf) :: rest) sum = some total) :
    ∃ Ci, S.pointSetBytes bytes = some Ci ∧ verifyOR S Ci (lessWeight S i Ci) pf = true ∧
      verifyBits S (i + 1) rest (sum + Ci) = some total := by
  rw [verifyBits] at accepted
  cases point : S.pointSetBytes bytes with
  | none =>
    rw [point] at accepted
    exact absurd accepted.symm (Option.some_ne_none total)
  | some Ci =>
    rw [point] at accepted
    dsimp only at accepted
    split_ifs at accepted with refused
    refine ⟨Ci, rfl, ?_, accepted⟩
    rwa [Bool.not_eq_true', Bool.not_eq_false] at refused

/-- Two accepted lists of proofs for the same commitments open each of them and their sum. -/
theorem verifyBits_extract {hash : Bytes → List Bytes → ZMod L} {i : Nat} {comms : List Bytes}
    {pfs pfs' : List OrProof} {sum sum' total total' : M}
    (length : pfs.length = comms.length) (length' : pfs'.length = comms.length)
    (accepted : verifyBits S i (comms.zip pfs) sum = some total)
    (accepted' : verifyBits (withHash S hash) i (comms.zip pfs') sum' = some total')
    (forks : ∀ j bytes pf pf', comms[j]? = some bytes → pfs[j]? = some pf → pfs'[j]? = some pf' →
      Fork S (i + j) bytes pf pf') :
    total = sum + commsFrom S i (List.zipWith (extractProof S) pfs pfs') ∧
    ∀ j bytes pf pf', comms[j]? = some bytes → pfs[j]? = some pf → pfs'[j]? = some pf' →
      S.pointSetBytes bytes =
        some (bitComm S (i + j) (extractProof S pf pf').1 (extractProof S pf pf').2) := by
  induction comms generalizing i pfs pfs' sum sum' with
  | nil =>
    obtain rfl := List.length_eq_zero_iff.mp length
    refine ⟨?_, fun j bytes pf pf' listed => ?_⟩
    · rw [List.zip_nil_left, verifyBits] at accepted
      rw [← Option.some.inj accepted]
      exact (add_zero sum).symm
    · simp at listed
  | cons bytes comms ih =>
    cases pfs with
    | nil => simp at length
    | cons pf pfs =>
      cases pfs' with
      | nil => simp at length'
      | cons pf' pfs' =>
        rw [List.zip_cons_cons] at accepted accepted'
        obtain ⟨Ci, point, here, rest⟩ := verifyBits_cons accepted
        obtain ⟨Ci', point', here', rest'⟩ := verifyBits_cons accepted'
        obtain rfl : Ci = Ci' := Option.some.inj (point.symm.trans point')
        obtain ⟨a, read⟩ := verifyOR_answer here
        obtain ⟨a', read'⟩ := verifyOR_answer here'
        obtain ⟨first, apart⟩ := forks 0 bytes pf pf' rfl rfl rfl Ci a a' point read read'
        have opened : Ci = bitComm S i (extractProof S pf pf').1 (extractProof S pf pf').2 := by
          change pf'.answer S = some a' at read'
          rw [extractProof, read, read']
          exact extractBit_opens first apart
        obtain ⟨whole, each⟩ := ih (by simpa using length) (by simpa using length') rest rest'
          fun j bytes pf pf' one two three => by
            have fork := forks (j + 1) bytes pf pf' one two three
            rwa [← Nat.add_assoc, Nat.add_right_comm] at fork
        refine ⟨?_, fun j => ?_⟩
        · rw [whole, List.zipWith_cons_cons, commsFrom, ← opened, add_assoc]
        · cases j with
          | zero =>
            intro b q q' one two three
            obtain rfl := Option.some.inj one
            obtain rfl := Option.some.inj two
            obtain rfl := Option.some.inj three
            rw [point]
            exact congrArg some opened
          | succ j =>
            intro b q q' one two three
            have later := each j b q q' one two three
            rwa [Nat.add_right_comm, Nat.add_assoc] at later

/-- What the check of a range says. -/
theorem verifyRange_bits [DecidableEq M] {C : M} {comms : List Bytes} {pfs : List OrProof}
    (accepted : verifyRange S C (some ⟨comms, pfs⟩) = true) :
    comms.length = rangeBits ∧ pfs.length = rangeBits ∧
      verifyBits S 0 (comms.zip pfs) 0 = some C := by
  unfold verifyRange at accepted
  dsimp only at accepted
  split_ifs at accepted with wrong
  rw [not_or, not_not, not_not] at wrong
  refine ⟨wrong.1, wrong.2, ?_⟩
  cases sum : verifyBits S 0 (comms.zip pfs) 0 with
  | none =>
    rw [sum] at accepted
    exact absurd accepted Bool.false_ne_true
  | some total =>
    rw [sum] at accepted
    rw [of_decide_eq_true accepted]

theorem forks_proveRange {hash : Bytes → List Bytes → ZMod L} (v : UInt64)
    (coins : Nat → BitCoins L)
    (differ : ∀ P0 P1 T0 T1, orChallenge S P0 P1 T0 T1 ≠ orChallenge (withHash S hash) P0 P1 T0 T1)
    {i : Nat} {bytes : Bytes} {pf pf' : OrProof}
    (comm : (proveRange S v coins).2.2.bitComms[i]? = some bytes)
    (proof : (proveRange S v coins).2.2.orProofs[i]? = some pf)
    (proof' : (proveRange (withHash S hash) v coins).2.2.orProofs[i]? = some pf') :
    Fork S i bytes pf pf' := by
  rw [proveRange_eq, List.getElem?_map, Option.map_eq_some_iff] at comm proof proof'
  obtain ⟨j, listed, rfl⟩ := comm
  obtain ⟨j', listed', rfl⟩ := proof
  obtain ⟨j'', listed'', rfl⟩ := proof'
  obtain rfl : j = j' := Option.some.inj (listed.symm.trans listed')
  obtain rfl : j = j'' := Option.some.inj (listed.symm.trans listed'')
  obtain rfl : i = j := by
    obtain ⟨inside, same⟩ := List.getElem?_eq_some_iff.mp listed
    rw [← same, List.getElem_range]
  intro Ci a a' point read read'
  obtain rfl : commAt S v coins i = Ci := by
    rw [S.pointSetBytes_pointBytes] at point
    exact Option.some.inj point
  obtain ⟨b, own, first, challenge⟩ := answer_proveOR (S := S) (v.toNat.testBit i)
    (bitComm_branch i _ (coins i).r) (coins i)
  obtain ⟨b', own', first', challenge'⟩ := answer_proveOR (S := withHash S hash)
    (v.toNat.testBit i) (bitComm_branch i _ (coins i).r) (coins i)
  obtain rfl : a = b := Option.some.inj (read.symm.trans own)
  obtain rfl : a' = b' := Option.some.inj (read'.symm.trans own')
  refine ⟨first.trans first'.symm, ?_⟩
  rw [challenge, challenge']
  exact differ _ _ _ _

end Extraction

/-- **The range proof.** What the prover builds for a value is accepted and commits to it. From
two accepted proofs for one commitment with the same first messages and other challenges for
every bit, each bit's commitment is opened to zero or its weight, and the commitment itself to a
number of 64 bits. -/
theorem range_proof [DecidableEq M] :
    (∀ v coins, verifyRange S (proveRange S v coins).1 (some (proveRange S v coins).2.2) = true ∧
      (proveRange S v coins).1 =
        (v.toNat : ZMod L) • S.hPoint + (proveRange S v coins).2.1 • S.basePoint) ∧
    ∀ (hash : Bytes → List Bytes → ZMod L) (C : M) (comms : List Bytes) (pfs pfs' : List OrProof),
      verifyRange S C (some ⟨comms, pfs⟩) = true →
      verifyRange (withHash S hash) C (some ⟨comms, pfs'⟩) = true →
      (∀ i bytes pf pf', comms[i]? = some bytes → pfs[i]? = some pf → pfs'[i]? = some pf' →
        Fork S i bytes pf pf') →
      (∀ i bytes pf pf', comms[i]? = some bytes → pfs[i]? = some pf → pfs'[i]? = some pf' →
        S.pointSetBytes bytes =
          some (bitComm S i (extractProof S pf pf').1 (extractProof S pf pf').2)) ∧
      ∃ n blind, n = valueFrom 0 ((List.zipWith (extractProof S) pfs pfs').map Prod.fst) ∧
        blind = ((List.zipWith (extractProof S) pfs pfs').map Prod.snd).sum ∧ n < 2 ^ 64 ∧
        C = (n : ZMod L) • S.hPoint + blind • S.basePoint := by
  refine ⟨fun v coins => ⟨verifyRange_proveRange v coins, proveRange_commitment S v coins⟩, ?_⟩
  intro hash C comms pfs pfs' accepted accepted' forks
  obtain ⟨length, count, bits⟩ := verifyRange_bits accepted
  obtain ⟨-, count', bits'⟩ := verifyRange_bits accepted'
  obtain ⟨whole, each⟩ := verifyBits_extract (count.trans length.symm) (count'.trans length.symm)
    bits bits' fun i bytes pf pf' one two three => by
      rw [Nat.zero_add]
      exact forks i bytes pf pf' one two three
  refine ⟨fun i bytes pf pf' one two three => ?_, _, _, rfl, rfl, ?_, ?_⟩
  · have opened := each i bytes pf pf' one two three
    rwa [Nat.zero_add] at opened
  · have bound := valueFrom_le 0 ((List.zipWith (extractProof S) pfs pfs').map Prod.fst)
    rw [List.length_map, List.length_zipWith, count, count', Nat.zero_add] at bound
    have width : 2 ^ min rangeBits rangeBits = 2 ^ 64 := rfl
    omega
  · rw [whole, zero_add, commsFrom_eq]

/-! ## A sample -/

section Sample

open Payment.Forgery

/-- The sample group with a constant hash. -/
def constant : Suite order (ZMod order) := withHash suite fun _ _ => 1

/-- The value five. -/
def proof : ZMod order × ZMod order × RangeProof := proveRange constant 5 fun _ => ⟨1, 2, 3, 4⟩

/-- The same prover under another hash. -/
def again : ZMod order × ZMod order × RangeProof :=
  proveRange (withHash constant fun _ _ => 2) 5 fun _ => ⟨1, 2, 3, 4⟩

/-- Two proofs of one prover are opened. -/
theorem range_proof_sample :
    verifyRange constant proof.1 (some proof.2.2) = true ∧
    ∃ (n : Nat) (blind : ZMod order), n < 2 ^ 64 ∧
      proof.1 = (n : ZMod order) • constant.hPoint + blind • constant.basePoint := by
  obtain ⟨complete, sound⟩ := range_proof constant
  have accepted' : verifyRange (withHash constant fun _ _ => 2) proof.1
      (some ⟨proof.2.2.bitComms, again.2.2.orProofs⟩) = true := by
    have own := verifyRange_proveRange (S := withHash constant fun _ _ => 2) 5
      (fun _ => ⟨1, 2, 3, 4⟩)
    rw [proveRange_eq] at own
    rw [proof, again, proveRange_eq, proveRange_eq]
    exact own
  obtain ⟨-, n, blind, -, -, small, opened⟩ := sound (fun _ _ => 2) proof.1 proof.2.2.bitComms
    proof.2.2.orProofs again.2.2.orProofs (complete 5 _).1 accepted'
    fun i bytes pf pf' one two three => forks_proveRange 5 _ (fun _ _ _ _ => by
      change (1 : ZMod order) ≠ 2
      decide) one two three
  exact ⟨(complete 5 _).1, n, blind, small, opened⟩

end Sample

end Obscura.Range
