import Mathlib.Algebra.Group.MinimalAxioms
import Mathlib.Algebra.Group.Basic
import Mathlib.Algebra.BigOperators.Group.List.Basic
import Obscura.Group.ClassGroup
import Obscura.Lib.Windowed

/-! # Powers and the output accumulator

`Exp` takes a power by windows of four bits. Where the forms in question are a group it is the
power by repeated composition, and so a block of primes may be folded into the accumulator in
one exponentiation of their product.
-/

namespace Obscura.Group

open Windowed

section Exp

variable (Z : BigGCD) (D : ℤ)

/-- Windowed exponentiation; a negative exponent inverts the base. -/
def exp (a : Form) (e : ℤ) : Form :=
  let base := if e < 0 then inverse D a else a
  let exp := e.natAbs
  if exp = 0 then identity D else windowed (compose Z D) (identity D) 4 base exp

/-- The composition of a number of copies of a form. -/
def copies (g : Form) : Nat → Form
  | 0 => identity D
  | n + 1 => compose Z D (copies g n) g

/-- The power by repeated composition. -/
def power (g : Form) (e : ℤ) : Form :=
  if e < 0 then copies Z D (inverse D g) e.natAbs else copies Z D g e.natAbs

/-- The forms with the property are a group under composition. -/
structure Laws (member : Form → Prop) : Prop where
  identity_mem : member (identity D)
  inverse_mem : ∀ f, member f → member (inverse D f)
  compose_mem : ∀ f g, member f → member g → member (compose Z D f g)
  assoc : ∀ f g h, member f → member g → member h →
    compose Z D (compose Z D f g) h = compose Z D f (compose Z D g h)
  neutral : ∀ f, member f → compose Z D (identity D) f = f
  opposite : ∀ f, member f → compose Z D (inverse D f) f = identity D

end Exp

/-! ## The accumulator -/

/-- The accumulator keeps its members unless it is in the value-only mode. -/
structure Accumulator where
  acc : Form
  members : List ℤ := []
  valueOnly : Bool := false
  count : Nat := 0

namespace Accumulator

variable (Z : BigGCD) (D : ℤ)

/-- A value-only accumulator at the generator. -/
def newValueOnly (G : ClassGroup) : Accumulator := { acc := G.gen, valueOnly := true }

/-- The members, or their count. -/
def size (a : Accumulator) : Nat := if a.valueOnly then a.count else a.members.length

/-- Raise the value to a member. -/
def add (a : Accumulator) (p : ℤ) : Except String Accumulator :=
  if a.valueOnly then
    .ok { a with acc := exp Z D a.acc p, count := a.count + 1 }
  else if p ∈ a.members then
    .error "accumulator: element already present"
  else
    .ok { a with acc := exp Z D a.acc p, members := p :: a.members }

/-- Raise the value to a product of members at once. -/
def addBatch (a : Accumulator) (product : ℤ) (n : Nat) : Accumulator :=
  if n = 0 then a else { a with acc := exp Z D a.acc product, count := a.count + n }

end Accumulator

/-! ## Powers in the group -/

section Laws

variable {Z : BigGCD} {D : ℤ} {member : Form → Prop}

/-- The members with composition. -/
abbrev Laws.group (laws : Laws Z D member) : Group {f // member f} :=
  @Group.ofLeftAxioms {f // member f}
    ⟨fun f g => ⟨compose Z D f.1 g.1, laws.compose_mem _ _ f.2 g.2⟩⟩
    ⟨fun f => ⟨inverse D f.1, laws.inverse_mem _ f.2⟩⟩
    ⟨⟨identity D, laws.identity_mem⟩⟩
    (fun f g h => Subtype.ext (laws.assoc _ _ _ f.2 g.2 h.2))
    (fun f => Subtype.ext (laws.neutral _ f.2))
    (fun f => Subtype.ext (laws.opposite _ f.2))

theorem Laws.copies_eq (laws : Laws Z D member) (g : {f // member f}) (n : Nat) :
    letI := laws.group
    copies Z D g.1 n = (g ^ n).1 := by
  let := laws.group
  induction n with
  | zero => rw [pow_zero]; rfl
  | succ n ih => rw [pow_succ, copies, ih]; rfl

theorem Laws.windowed_eq (laws : Laws Z D member) (g : {f // member f}) (n : Nat) :
    letI := laws.group
    windowed (compose Z D) (identity D) 4 g.1 n = (g ^ n).1 := by
  let := laws.group
  rw [← Windowed.windowed_eq (by decide : 0 < 4) g n]
  exact (@map_windowed {f // member f} Form (· * ·) (compose Z D) 1 (identity D) Subtype.val
    (fun _ _ => rfl) rfl 4 g n).symm

theorem Laws.exp_eq (laws : Laws Z D member) (g : {f // member f}) (e : ℤ) :
    letI := laws.group
    exp Z D g.1 e = (g ^ e).1 := by
  let := laws.group
  have base : (if e < 0 then inverse D g.1 else g.1) = (if e < 0 then g⁻¹ else g).1 := by
    split_ifs
    · rfl
    · rfl
  have value : exp Z D g.1 e = ((if e < 0 then g⁻¹ else g) ^ e.natAbs).1 := by
    unfold exp
    dsimp only
    rw [base, laws.windowed_eq]
    by_cases none : e.natAbs = 0
    · rw [if_pos none, none, pow_zero]
      rfl
    · rw [if_neg none]
  rw [value]
  split_ifs with negative
  · have opposite : e = -(e.natAbs : ℤ) := by omega
    rw [inv_pow, ← zpow_natCast, ← zpow_neg, ← opposite]
  · have same : e = (e.natAbs : ℤ) := by omega
    rw [← zpow_natCast, ← same]

theorem Laws.power_eq (laws : Laws Z D member) {g : Form} (element : member g) (e : ℤ) :
    exp Z D g e = power Z D g e := by
  let := laws.group
  rw [power, laws.copies_eq ⟨g, element⟩, laws.copies_eq ⟨_, laws.inverse_mem g element⟩,
    laws.exp_eq ⟨g, element⟩]
  split_ifs with negative
  · have opposite : e = -(e.natAbs : ℤ) := by omega
    conv_lhs => rw [opposite, zpow_neg, zpow_natCast, ← inv_pow]
    rfl
  · have same : e = (e.natAbs : ℤ) := by omega
    conv_lhs => rw [same, zpow_natCast]

theorem Laws.exp_mem (laws : Laws Z D member) {g : Form} (element : member g) (e : ℤ) :
    member (exp Z D g e) := by
  rw [laws.exp_eq ⟨g, element⟩]
  exact Subtype.property _

theorem Laws.exp_exp (laws : Laws Z D member) {g : Form} (element : member g) (e e' : ℤ) :
    exp Z D (exp Z D g e) e' = exp Z D g (e * e') := by
  let := laws.group
  have inner := laws.exp_eq ⟨g, element⟩ e
  rw [inner, laws.exp_eq, laws.exp_eq ⟨g, element⟩, zpow_mul]

theorem Laws.exp_one (laws : Laws Z D member) {g : Form} (element : member g) :
    exp Z D g 1 = g := by
  let := laws.group
  rw [laws.exp_eq ⟨g, element⟩, zpow_one]

namespace Accumulator

theorem addBatch_eq (laws : Laws Z D member) {a : Accumulator} (element : member a.acc)
    {product : ℤ} {n : Nat} (empty : n = 0 → product = 1) :
    a.addBatch Z D product n =
      { a with acc := exp Z D a.acc product, count := a.count + n } := by
  rw [addBatch]
  split_ifs with none
  · rw [empty none, laws.exp_one element, none]
    rfl
  · rfl

/-- Adding one after the other is one batch. -/
theorem foldlM_add (laws : Laws Z D member) {a : Accumulator} (mode : a.valueOnly = true)
    (element : member a.acc) (primes : List ℤ) :
    primes.foldlM (add Z D) a = .ok (a.addBatch Z D primes.prod primes.length) := by
  induction primes generalizing a with
  | nil => rfl
  | cons p primes ih =>
    have step : a.add Z D p = .ok { a with acc := exp Z D a.acc p, count := a.count + 1 } := by
      rw [add, if_pos mode]
    have empty : ∀ list : List ℤ, list.length = 0 → list.prod = 1 := fun list none => by
      rw [List.length_eq_zero_iff.mp none, List.prod_nil]
    rw [List.foldlM_cons, step]
    refine (@ih { a with acc := exp Z D a.acc p, count := a.count + 1 } mode
      (laws.exp_mem element p)).trans ?_
    rw [addBatch_eq laws element (empty (p :: primes)),
      addBatch_eq laws (laws.exp_mem element p) (empty primes)]
    dsimp only
    rw [laws.exp_exp element, List.prod_cons, List.length_cons, Nat.add_assoc, Nat.add_comm 1]

end Accumulator

/-- **Windows and batches.** In a group `Exp` is the power by repeated composition, and a batch
leaves an accumulator in the value-only mode with the value and the size of adding its primes
one by one in any order, the value being the power that is predicted for it. -/
theorem exp_spec (laws : Laws Z D member) :
    (∀ g, member g → ∀ e, exp Z D g e = power Z D g e) ∧
    ∀ (a : Accumulator) (primes order : List ℤ), a.valueOnly = true → member a.acc →
      order.Perm primes →
        order.foldlM (Accumulator.add Z D) a =
          .ok (a.addBatch Z D primes.prod primes.length) ∧
        (a.addBatch Z D primes.prod primes.length).acc = exp Z D a.acc primes.prod ∧
        (a.addBatch Z D primes.prod primes.length).size = a.size + primes.length := by
  refine ⟨fun g element e => laws.power_eq element e, fun a primes order mode element perm => ?_⟩
  have batch := @Accumulator.addBatch_eq Z D member laws a element primes.prod primes.length
    fun none => by rw [List.length_eq_zero_iff.mp none, List.prod_nil]
  refine ⟨?_, ?_, ?_⟩
  · rw [Accumulator.foldlM_add laws mode element, perm.prod_eq, perm.length_eq]
  · rw [batch]
  · rw [batch, Accumulator.size, Accumulator.size, if_pos mode, if_pos mode]

end Laws

/-! ## The group of a prime discriminant -/

/-- The laws hold for the class group of a prime. -/
theorem laws_prime (Z : BigGCD) {p : Nat} (prime : p.Prime) (residue : p % 8 = 7) :
    Laws Z (-p) (IsReduced (-p)) := by
  obtain ⟨n, definite, quarter⟩ := exists_quarter residue
  have reduced_iff : ∀ f, IsReduced (1 - 4 * n) f ↔ ReducedForm n f := fun f =>
    quarter ▸ isReduced_iff prime quarter
  have primitive : ∀ f, ReducedForm n f → Primitive f := fun f reduced =>
    ((reduced_iff f).mpr reduced).primitive
  obtain ⟨neutral, -⟩ := identity_spec definite
  rw [quarter]
  constructor
  case identity_mem => exact (reduced_iff _).mpr neutral
  case inverse_mem =>
    intro f first
    exact (reduced_iff _).mpr (inverse_spec definite ((reduced_iff f).mp first) first.primitive).1
  case compose_mem =>
    intro f g first second
    exact (reduced_iff _).mpr (compose_spec Z definite ((reduced_iff f).mp first)
      ((reduced_iff g).mp second) first.primitive).1
  case assoc =>
    intro f g h first second third
    exact compose_assoc Z definite primitive ((reduced_iff f).mp first) ((reduced_iff g).mp second)
      ((reduced_iff h).mp third)
  case neutral =>
    intro f first
    have reduced := (reduced_iff f).mp first
    exact (compose_comm Z definite primitive neutral reduced).trans
      (compose_identity Z definite primitive reduced)
  case opposite =>
    intro f first
    have reduced := (reduced_iff f).mp first
    exact (compose_comm Z definite primitive (inverse_spec definite reduced first.primitive).1
      reduced).trans (compose_inverse Z definite primitive reduced)

/-- Two primes folded into the accumulator of the discriminant `-23`. -/
theorem exp_spec_23 :
    [(5 : ℤ), 3].foldlM (Accumulator.add euclid (-23)) ⟨⟨2, 1, 3⟩, [], true, 0⟩ =
      .ok (Accumulator.addBatch euclid (-23) ⟨⟨2, 1, 3⟩, [], true, 0⟩ [3, 5].prod 2) := by
  have reduced : IsReduced (-(23 : ℕ)) ⟨2, 1, 3⟩ :=
    ⟨by decide, by unfold Primitive; decide, by decide, by decide, by decide, by decide, by decide⟩
  exact ((exp_spec (laws_prime euclid (by norm_num) (by decide))).2 ⟨⟨2, 1, 3⟩, [], true, 0⟩
    [3, 5] [5, 3] rfl reduced (List.Perm.swap 3 5 [])).1

end Obscura.Group
