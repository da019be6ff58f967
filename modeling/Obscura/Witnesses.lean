import Mathlib
import Obscura.Group.Exp

/-! # Accumulator witnesses

The accumulator of prime members with its witnesses, over any commutative group: an archive
node's value is the generator to the product of the members (`accumulator_run`), whichever way
they came and went, and exactly the members have membership witnesses and exactly the other
primes non-membership witnesses. A false witness is a root of the generator. The proofs of
exponentiation that go with them accept exactly up to powers to the challenge (`poe_exact`).
-/

namespace Obscura.Witnesses

variable {G : Type} [CommGroup G]

/-! ## The accumulator -/

/-- The members of a node that keeps them; a value-only node has none. -/
structure Accumulator (G : Type) where
  acc : G
  members : List ℤ := []
  valueOnly : Bool := false
  count : Nat := 0

namespace Accumulator

variable (g : G) (Z : Group.BigGCD)

/-- `New`: the empty set. -/
def new : Accumulator G := { acc := g }

/-- `NewValueOnly`: the empty set, whose members are not kept. -/
def newValueOnly : Accumulator G := { acc := g, valueOnly := true }

/-- `Contains`; a value alone knows of no member. -/
def contains (a : Accumulator G) (p : ℤ) : Bool := !a.valueOnly && a.members.contains p

/-- `Add`: a new prime; a repeated one is refused where members are kept. -/
def add (a : Accumulator G) (p : ℤ) : Except String (Accumulator G) :=
  if a.valueOnly then .ok { a with acc := a.acc ^ p, count := a.count + 1 }
  else if p ∈ a.members then .error "accumulator: element already present"
  else .ok { a with acc := a.acc ^ p, members := p :: a.members }

/-- `AddBatch` of the product of so many primes. -/
def addBatch (a : Accumulator G) (product : ℤ) (n : Nat) : Accumulator G :=
  if n = 0 then a else { a with acc := a.acc ^ product, count := a.count + n }

/-- The product of the members. -/
def product (a : Accumulator G) : ℤ := a.members.prod

/-- The value from the members, after the removal of `p`. -/
def remove (a : Accumulator G) (p : ℤ) : Except String (Accumulator G) :=
  if p ∈ a.members then
    .ok { a with members := a.members.erase p, acc := g ^ (a.members.erase p).prod }
  else
    .error "accumulator: element not present"

/-- The product of the other members. -/
def productExcept (a : Accumulator G) (p : ℤ) : ℤ := (a.members.filter (· != p)).prod

/-- `MembershipWitness`: the value of the other members. -/
def membershipWitness (a : Accumulator G) (p : ℤ) : Except String G :=
  if a.valueOnly then
    .error "accumulator: value-only node cannot build witnesses (archive node required)"
  else if !a.contains p then .error "accumulator: cannot witness absent element"
  else .ok (g ^ a.productExcept p)

/-- A proof of absence: the coefficient of the product and the power of the base. -/
structure NonMembership (G : Type) where
  A : ℤ
  D : G

/-- `ProveNonMembership`: the coefficients of Bézout, where the prime does not divide. -/
def proveNonMembership (a : Accumulator G) (x : ℤ) : Except String (NonMembership G) :=
  if Int.gcd a.product x ≠ 1 then .error "accumulator: element is a member (gcd != 1)"
  else .ok ⟨(Z.coefficients a.product x).1, g ^ (Z.coefficients a.product x).2⟩

end Accumulator

/-- `VerifyMembership`. -/
def verifyMembership [DecidableEq G] (acc w : G) (p : ℤ) : Bool := w ^ p = acc

/-- `VerifyNonMembership`. -/
def verifyNonMembership [DecidableEq G] (g acc : G) (x : ℤ)
    (pf : Accumulator.NonMembership G) : Bool :=
  acc ^ pf.A * pf.D ^ x = g

/-! ## Proofs of exponentiation -/

/-- A proof of exponentiation. -/
structure PoE (G : Type) where
  Q : G

/-- A proof of knowledge of an exponent. -/
structure PoKE2 (G : Type) where
  Z : G
  Q : G
  R : ℤ

/-- The hashes that the challenges come from. -/
structure Challenges (G : Type) where
  poe : (base acc : G) → (exp : ℤ) → ℤ
  poke2 : (base target z : G) → ℤ
  poke2Alpha : (base target z : G) → (ell : ℤ) → ℤ

variable (H : Challenges G) (g : G)

/-- `ProvePoE`: the quotient of the exponent by the challenge. -/
def provePoE (base acc : G) (exp : ℤ) : PoE G := ⟨base ^ (exp / H.poe base acc exp)⟩

/-- `VerifyPoE`: quotient and remainder make up the exponent. -/
def verifyPoE [DecidableEq G] (base acc : G) (exp : ℤ) (pf : PoE G) : Bool :=
  pf.Q ^ H.poe base acc exp * base ^ (exp % H.poe base acc exp) = acc

/-- `ProvePoKE2`: with a commitment under the fixed base. -/
def provePoKE2 (base target : G) (x : ℤ) : PoKE2 G :=
  let z := g ^ x
  let ell := H.poke2 base target z
  let bg := base * g ^ H.poke2Alpha base target z ell
  ⟨z, bg ^ (x / ell), x % ell⟩

/-- `VerifyPoKE2`: both bases at once, under the second challenge. -/
def verifyPoKE2 [DecidableEq G] (base target : G) (pf : PoKE2 G) : Bool :=
  let ell := H.poke2 base target pf.Z
  let alpha := H.poke2Alpha base target pf.Z ell
  let bg := base * g ^ alpha
  !(pf.R < 0 || ell ≤ pf.R) && (pf.Q ^ ell * bg ^ pf.R = target * pf.Z ^ alpha : Bool)

/-! ## Runs -/

/-- What happens to a set. -/
inductive Action where
  | add (p : ℤ)
  | remove (p : ℤ)

/-- The accumulator after an action that succeeds. -/
def step (a : Accumulator G) : Action → Accumulator G
  | .add p =>
    match a.add p with
    | .ok a => a
    | .error _ => a
  | .remove p =>
    match a.remove g p with
    | .ok a => a
    | .error _ => a

/-- An archive node from the empty set. -/
def run (actions : List Action) : Accumulator G := actions.foldl (step g) (.new g)

/-- What was added is prime, as it comes from the hash to primes. -/
def Primes (actions : List Action) : Prop :=
  ∀ p, .add p ∈ actions → 0 < p ∧ Prime p

/-- The accumulator holds the set that its actions made. -/
structure Holds (a : Accumulator G) : Prop where
  archive : a.valueOnly = false
  value : a.acc = g ^ a.members.prod
  nodup : a.members.Nodup
  prime : ∀ p ∈ a.members, 0 < p ∧ Prime p

variable {g} {a : Accumulator G}

/-- An insertion. -/
theorem Holds.add (holds : Holds g a) {p : ℤ} (prime : 0 < p ∧ Prime p) :
    Holds g (step g a (.add p)) := by
  dsimp only [step, Accumulator.add]
  rw [if_neg (by rw [holds.archive]; exact Bool.false_ne_true)]
  split_ifs with present
  · exact holds
  · exact {
      archive := holds.archive
      value := by
        rw [holds.value, List.prod_cons, ← zpow_mul, mul_comm]
      nodup := List.nodup_cons.mpr ⟨present, holds.nodup⟩
      prime := List.forall_mem_cons.mpr ⟨prime, holds.prime⟩ }

/-- A removal. -/
theorem Holds.remove (holds : Holds g a) (p : ℤ) : Holds g (step g a (.remove p)) := by
  dsimp only [step, Accumulator.remove]
  split_ifs with present
  · exact {
      archive := holds.archive
      value := rfl
      nodup := holds.nodup.erase p
      prime := fun q member => holds.prime q (List.mem_of_mem_erase member) }
  · exact holds

theorem Holds.run {actions : List Action} (primes : Primes actions) :
    Holds g (run g actions) := by
  induction actions using List.reverseRecOn with
  | nil => exact ⟨rfl, (zpow_one g).symm, List.nodup_nil, by simp [Witnesses.run, Accumulator.new]⟩
  | append_singleton actions last ih =>
    have holds := ih fun p member => primes p (List.mem_append_left _ member)
    rw [Witnesses.run, List.foldl_append]
    cases last with
    | add p => exact holds.add (primes p (List.mem_append_right _ (List.mem_singleton.mpr rfl)))
    | remove p => exact holds.remove p

/-! ## Members -/

theorem Holds.product_pos (holds : Holds g a) : 0 < a.product :=
  List.prod_pos fun p member => (holds.prime p member).1

theorem Holds.gcd_iff (holds : Holds g a) {x : ℤ} (positive : 0 < x) (prime : Prime x) :
    Int.gcd a.product x = 1 ↔ x ∉ a.members := by
  constructor
  · intro coprime member
    have divides : x ∣ a.product := List.dvd_prod member
    have whole : (Int.gcd a.product x : ℤ) = x := by
      rw [Int.gcd_comm, Int.gcd_eq_left positive.le divides]
    rw [coprime] at whole
    exact prime.not_isUnit (whole ▸ isUnit_one)
  · intro absent
    have coprime : IsCoprime a.product x := by
      refine (Prime.coprime_iff_not_dvd prime).mpr ?_ |>.symm
      intro divides
      obtain ⟨p, member, through⟩ := (Prime.dvd_prod_iff prime).mp divides
      have other := (holds.prime p member)
      have same := Int.associated_iff.mp ((prime.dvd_prime_iff_associated other.2).mp through)
      rcases same with rfl | opposite
      · exact absent member
      · omega
    exact Int.isCoprime_iff_gcd_eq_one.mp coprime

theorem Holds.productExcept_mul (holds : Holds g a) {p : ℤ} (member : p ∈ a.members) :
    a.productExcept p * p = a.product := by
  unfold Accumulator.productExcept Accumulator.product
  have erased : a.members.filter (· != p) = a.members.erase p :=
    (holds.nodup.erase_eq_filter p).symm
  rw [erased, mul_comm, List.prod_erase member]

theorem Holds.contains_iff (holds : Holds g a) {p : ℤ} : a.contains p = true ↔ p ∈ a.members := by
  rw [Accumulator.contains, holds.archive]
  simp

theorem Holds.membershipWitness (holds : Holds g a) {p : ℤ} (member : p ∈ a.members) :
    a.membershipWitness g p = .ok (g ^ a.productExcept p) := by
  unfold Accumulator.membershipWitness
  rw [if_neg (by rw [holds.archive]; exact Bool.false_ne_true),
    if_neg (by simp [holds.contains_iff.mpr member])]

theorem Holds.witness_power (holds : Holds g a) {p : ℤ} (member : p ∈ a.members) :
    (g ^ a.productExcept p) ^ p = a.acc := by
  rw [← zpow_mul, holds.productExcept_mul member, holds.value]
  rfl

/-- The root of the generator that a witness of an exponent without common factors gives. -/
def bezoutRoot (g : G) (s x : ℤ) (w : G) : G := w ^ Int.gcdA s x * g ^ Int.gcdB s x

theorem bezoutRoot_power {w : G} {s x : ℤ} (opened : w ^ x = g ^ s) (coprime : Int.gcd s x = 1) :
    bezoutRoot g s x w ^ x = g := by
  have bezout : s * Int.gcdA s x + x * Int.gcdB s x = 1 := by
    rw [← Int.gcd_eq_gcd_ab, coprime, Nat.cast_one]
  calc bezoutRoot g s x w ^ x = (w ^ x) ^ Int.gcdA s x * g ^ (x * Int.gcdB s x) := by
        rw [bezoutRoot, mul_zpow, ← zpow_mul, ← zpow_mul, ← zpow_mul, mul_comm x (Int.gcdA s x),
          mul_comm x (Int.gcdB s x)]
    _ = g := by rw [opened, ← zpow_mul, ← zpow_add, bezout, zpow_one]

/-- After any additions of primes and any removals: the value is the generator to the product
of the members; exactly the members have membership witnesses, and these verify; exactly the
other primes have non-membership witnesses, and these verify; any other accepted witness gives a
root of the generator, of the prime that it is about. -/
theorem accumulator_run [DecidableEq G] (g : G) (Z : Group.BigGCD) {actions : List Action}
    (primes : Primes actions) :
    (run g actions).acc = g ^ (run g actions).members.prod ∧
    (∀ p, (∃ w, (run g actions).membershipWitness g p = .ok w ∧
        verifyMembership (run g actions).acc w p = true) ↔ p ∈ (run g actions).members) ∧
    (∀ x, 0 < x → Prime x → ((∃ pf, (run g actions).proveNonMembership g Z x = .ok pf ∧
        verifyNonMembership g (run g actions).acc x pf = true) ↔ x ∉ (run g actions).members)) ∧
    (∀ x w, 0 < x → Prime x → x ∉ (run g actions).members →
      verifyMembership (run g actions).acc w x = true →
        bezoutRoot g (run g actions).product x w ^ x = g) ∧
    ∀ x pf, x ∈ (run g actions).members →
      verifyNonMembership g (run g actions).acc x pf = true →
        ((g ^ (run g actions).productExcept x) ^ pf.A * pf.D) ^ x = g := by
  have holds := Holds.run (g := g) primes
  generalize run g actions = a at holds
  refine ⟨holds.value, fun p => ?_, fun x positive prime => ?_, ?_, ?_⟩
  · constructor
    · rintro ⟨w, built, -⟩
      unfold Accumulator.membershipWitness at built
      rw [if_neg (by rw [holds.archive]; exact Bool.false_ne_true)] at built
      split_ifs at built with absent
      exact holds.contains_iff.mp (by simpa using absent)
    · intro member
      refine ⟨_, holds.membershipWitness member, ?_⟩
      rw [verifyMembership, decide_eq_true_iff]
      exact holds.witness_power member
  · unfold Accumulator.proveNonMembership
    rw [← holds.gcd_iff positive prime]
    constructor
    · rintro ⟨pf, built, -⟩
      split_ifs at built with shared
      exact not_not.mp shared
    · intro coprime
      refine ⟨_, if_neg (not_not.mpr coprime), ?_⟩
      have bezout := Z.bezout a.product x holds.product_pos.le positive.le
      unfold verifyNonMembership
      rw [decide_eq_true_iff, holds.value, ← zpow_mul, ← zpow_mul, ← zpow_add,
        mul_comm (Z.coefficients a.product x).2 x]
      change g ^ (a.product * _ + _) = g
      rw [bezout, coprime, Nat.cast_one, zpow_one]
  · intro x w positive prime absent accepted
    have opened : w ^ x = g ^ a.product := (of_decide_eq_true accepted).trans holds.value
    exact bezoutRoot_power opened ((holds.gcd_iff positive prime).mpr absent)
  · intro x pf member accepted
    have opened : a.acc ^ pf.A * pf.D ^ x = g := of_decide_eq_true accepted
    rw [mul_zpow, ← zpow_mul, ← zpow_mul, mul_comm pf.A x, ← mul_assoc (a.productExcept x),
      holds.productExcept_mul member, zpow_mul]
    rw [holds.value] at opened
    exact opened

/-- Two additions and a removal among the integers. -/
theorem accumulator_run_of_three :
    let g : Multiplicative ℤ := .ofAdd 1
    let actions : List Action := [.add 2, .add 3, .remove 2]
    (run g actions).acc = g ^ (run g actions).members.prod := by
  intro g actions
  refine (@accumulator_run _ _ _ g Group.euclid actions ?_).1
  intro p member
  have cases : p = 2 ∨ p = 3 := by simpa [actions] using member
  rcases cases with rfl | rfl
  · exact ⟨by decide, Int.prime_two⟩
  · exact ⟨by decide, Int.prime_three⟩

/-! ## Exponentiation -/

/-- What the two proofs of exponentiation establish, for a positive challenge. A first proof is
accepted for some answer exactly when the result is off the power by a power to the challenge, and
the honest answer exactly when it is the power; so is the honest second proof. -/
theorem poe_exact [DecidableEq G] (H : Challenges G) (g base acc : G) (exp : ℤ)
    (positive : ∀ z, 0 < H.poke2 base acc z) :
    ((∃ pf, verifyPoE H base acc exp pf = true) ↔
      ∃ u : G, acc = base ^ exp * u ^ H.poe base acc exp) ∧
    (verifyPoE H base acc exp (provePoE H base acc exp) = true ↔ acc = base ^ exp) ∧
    (verifyPoKE2 H g base acc (provePoKE2 H g base acc exp) = true ↔ acc = base ^ exp) := by
  have split : ∀ (b : G) (ell : ℤ), (b ^ (exp / ell)) ^ ell * b ^ (exp % ell) = b ^ exp := by
    intro b ell
    rw [← zpow_mul, ← zpow_add, Int.ediv_mul_add_emod]
  refine ⟨?_, ?_, ?_⟩
  · generalize ell : H.poe base acc exp = l
    constructor
    · rintro ⟨pf, accepted⟩
      have opened : pf.Q ^ l * base ^ (exp % l) = acc := by
        rw [← ell]
        exact of_decide_eq_true accepted
      refine ⟨pf.Q * (base ^ (exp / l))⁻¹, ?_⟩
      rw [← opened, ← split base l, mul_zpow, inv_zpow,
        mul_comm ((base ^ (exp / l)) ^ l * base ^ (exp % l)), mul_assoc (pf.Q ^ l),
        inv_mul_cancel_left]
    · rintro ⟨u, same⟩
      refine ⟨⟨base ^ (exp / l) * u⟩, ?_⟩
      unfold verifyPoE
      rw [decide_eq_true_iff, ell, mul_zpow, mul_right_comm, split base l, ← same]
  · unfold verifyPoE provePoE
    rw [decide_eq_true_iff, split]
    exact eq_comm
  · unfold verifyPoKE2 provePoKE2
    dsimp only
    have remainder := Int.emod_nonneg exp (positive (g ^ exp)).ne'
    have below := Int.emod_lt_of_pos exp (positive (g ^ exp))
    rw [split, mul_zpow, ← zpow_mul, ← zpow_mul, mul_comm exp]
    simp only [Bool.and_eq_true, Bool.not_eq_true', Bool.or_eq_false_iff, decide_eq_false_iff_not,
      not_lt, not_le, decide_eq_true_eq]
    rw [and_iff_right ⟨remainder, below⟩, mul_left_inj]
    exact eq_comm

/-- The fifth power of two among the integers, with the challenge `3`. -/
theorem poe_exact_five :
    let g : Multiplicative ℤ := .ofAdd 1
    let H : Challenges (Multiplicative ℤ) := ⟨fun _ _ _ => 3, fun _ _ _ => 3, fun _ _ _ _ => 7⟩
    verifyPoKE2 H g (.ofAdd 2) (.ofAdd 10) (provePoKE2 H g (.ofAdd 2) (.ofAdd 10) 5) = true ↔
      (.ofAdd 10 : Multiplicative ℤ) = (.ofAdd 2) ^ (5 : ℤ) := by
  intro g H
  exact (poe_exact H g (.ofAdd 2) (.ofAdd 10) 5 fun _ => show (0 : ℤ) < 3 by decide).2.2

/-! ## The class group -/

section Forms

variable {Z : Group.BigGCD} {D : ℤ} {member : Group.Form → Prop}

/-- Forms that are a group under composition are a commutative one when it commutes. -/
abbrev commGroup (laws : Group.Laws Z D member)
    (comm : ∀ f h, member f → member h → Group.compose Z D f h = Group.compose Z D h f) :
    CommGroup {f // member f} :=
  { laws.group with mul_comm := fun f h => Subtype.ext (comm _ _ f.2 h.2) }

/-- The accumulator of forms that an accumulator of group elements stands for. -/
def forms (a : Accumulator {f // member f}) : Group.Accumulator :=
  { acc := a.acc.1, members := a.members, valueOnly := a.valueOnly, count := a.count }

theorem add_forms (laws : Group.Laws Z D member)
    (comm : ∀ f h, member f → member h → Group.compose Z D f h = Group.compose Z D h f)
    (a : Accumulator {f // member f}) (p : ℤ) :
    letI := commGroup laws comm
    Group.Accumulator.add Z D (forms a) p = (a.add p).map forms := by
  let := commGroup laws comm
  have value : Group.exp Z D a.acc.1 p = (a.acc ^ p).1 := laws.exp_eq a.acc p
  unfold Group.Accumulator.add Accumulator.add forms
  dsimp only
  rw [value]
  split_ifs <;> rfl

end Forms

end Obscura.Witnesses
