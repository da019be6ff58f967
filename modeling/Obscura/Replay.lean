import Obscura.ApplySpec

/-! # Replaying a chain

A chain is a list of blocks, newest first, on top of genesis. `replay` is the
state obtained by applying its blocks one after the other; `Chained` says that
each of them was accepted on the state it was applied to.
-/

namespace Obscura

open Wire Tx Checked

/-- The state after the blocks of a chain. -/
def replay (V : Primitives) : List Block → Ledger
  | [] => genesisLedger V
  | b :: older => (applyBlock V (replay V older) b).2

/-- Acceptance at some clock, with the proofs of the transactions in `skip` left
out. -/
def AcceptedWith (V : Primitives) (skip : Transaction → Bool) (L : Ledger) (b : Block) : Prop :=
  ∃ now, validateBlockLocked V skip now L b = .ok ()

/-- Acceptance with every proof verified. -/
def Verified (V : Primitives) : Ledger → Block → Prop :=
  AcceptedWith V fun _ => false

/-- Acceptance under some content of the proof cache. -/
def Admitted (V : Primitives) (L : Ledger) (b : Block) : Prop :=
  ∃ skip, AcceptedWith V skip L b

/-- Each block was accepted on the chain below it and applied without an error. -/
def Chained (V : Primitives) (accepts : Ledger → Block → Prop) : List Block → Prop
  | [] => True
  | b :: older =>
    Chained V accepts older ∧ accepts (replay V older) b ∧
      (applyBlock V (replay V older) b).1 = none

section Chain

variable {V : Primitives}

theorem Verified.admitted {L : Ledger} {b : Block} (verified : Verified V L b) :
    Admitted V L b :=
  ⟨_, verified⟩

theorem Chained.mono {first second : Ledger → Block → Prop}
    (weaker : ∀ L b, first L b → second L b) {chain : List Block}
    (chained : Chained V first chain) : Chained V second chain := by
  induction chain with
  | nil => exact trivial
  | cons b older ih =>
    obtain ⟨below, accepted, applied⟩ := chained
    exact ⟨ih below, weaker _ _ accepted, applied⟩

/-! ## Genesis -/

theorem genesisCoinbase_legs : CoinbaseLegs genesisCoinbase := by
  constructor <;> rfl

theorem genesis_applicable :
    Applicable V (.empty V) (genesisBlock V (.empty V)) genesisCoinbase where
  head := rfl
  isCoinbase := rfl
  plain := by
    intro t member
    obtain rfl := List.mem_singleton.mp member
    exact ⟨rfl, rfl, by simp [genesisCoinbase], fun _ => genesisCoinbase_legs⟩
  primes := by simp [outputsOf, genesisBlock, genesisCoinbase]
  vaults := by
    refine ⟨⟨?_, ?_, ?_⟩, ?_, ?_, ?_⟩
    all_goals simp [genesisBlock, genesisCoinbase]
  valueOnly := rfl

theorem genesis_applied :
    applyBlock V (.empty V) (genesisBlock V (.empty V)) = (none, genesisLedger V) ∧
      Applied V (.empty V) (genesisBlock V (.empty V)) genesisCoinbase (genesisLedger V) := by
  obtain ⟨L, run, applied⟩ := applyBlock_applied (genesis_applicable (V := V))
  have same : genesisLedger V = L := by
    rw [genesisLedger, run]
  rw [same]
  exact ⟨run, applied⟩

/-! ## Every state on a chain -/

/-- The facts about a state that no accepted block changes. -/
structure Regular (L : Ledger) : Prop where
  valueOnly : L.acc.valueOnly = true
  noPQOutput : L.pqUtxo = ∅
  noPQKey : L.pqAcc = .new
  started : L.headers ≠ []
  heights : ∀ (height : Nat) (header : Header), L.headers[height]? = some header →
    header.height = height

theorem applyAccumulator_valueOnly (txs : List Transaction) (L : Ledger) :
    (applyAccumulator V txs L).acc.valueOnly = L.acc.valueOnly := by
  simp only [applyAccumulator, Accumulator.addBatch]
  split <;> rfl

/-- The genesis ledger is regular. -/
theorem Regular.genesis : Regular (genesisLedger V) := by
  obtain ⟨_, applied⟩ := genesis_applied (V := V)
  constructor
  case valueOnly => rw [applied.acc, applyAccumulator_valueOnly]; rfl
  case noPQOutput => rw [applied.pqUtxo]; rfl
  case noPQKey => rw [applied.pqAcc]; rfl
  case started => rw [applied.headers]; simp
  case heights =>
    intro height header found
    rw [applied.headers] at found
    cases height with
    | zero =>
      obtain rfl := Option.some.inj found
      rfl
    | succ height => simp [Ledger.empty] at found

theorem Regular.tip {L : Ledger} (regular : Regular L) {tip : Header}
    (found : L.tip? = some tip) : tip.height + 1 = L.headers.length := by
  rw [Ledger.tip?, List.getLast?_eq_getElem?] at found
  have height := regular.heights _ _ found
  have nonempty := List.length_pos_iff.mpr regular.started
  omega

/-- **One accepted block.** What validation established of it, what applying it
computed, and that the new state is regular again. -/
theorem Regular.step {L : Ledger} {b : Block} {skip : Transaction → Bool} {now : Int}
    (regular : Regular L) (accepted : validateBlockLocked V skip now L b = .ok ()) :
    ∃ cb txs L', BlockAccepted V skip now L b cb txs ∧ b.header.height = L.headers.length ∧
      applyBlock V L b = (none, L') ∧ Applied V L b cb L' ∧ Regular L' := by
  obtain ⟨cb, txs, block⟩ := validateBlock_accepted regular.noPQOutput accepted
  obtain ⟨L', run, applied⟩ := applyBlock_applied (block.applicable regular.valueOnly)
  obtain ⟨tip, tipFound, header⟩ := block.header
  have height : b.header.height = L.headers.length := by
    rw [header.height, regular.tip tipFound]
  refine ⟨cb, txs, L', block, height, run, applied, ?_⟩
  constructor
  case valueOnly => rw [applied.acc, applyAccumulator_valueOnly]; exact regular.valueOnly
  case noPQOutput => rw [applied.pqUtxo]; exact regular.noPQOutput
  case noPQKey => rw [applied.pqAcc]; exact regular.noPQKey
  case started => rw [applied.headers]; simp
  case heights =>
    intro position found atPosition
    rw [applied.headers] at atPosition
    by_cases old : position < L.headers.length
    · rw [List.getElem?_append_left old] at atPosition
      exact regular.heights position found atPosition
    · rw [List.getElem?_append_right (by omega), List.getElem?_singleton] at atPosition
      split at atPosition
      · obtain rfl := Option.some.inj atPosition
        omega
      · exact absurd atPosition (by simp)

theorem Chained.regular {chain : List Block} (chained : Chained V (Admitted V) chain) :
    Regular (replay V chain) := by
  induction chain with
  | nil => exact Regular.genesis
  | cons b older ih =>
    obtain ⟨below, ⟨skip, now, accepted⟩, _⟩ := chained
    obtain ⟨_, _, L', _, _, run, _, regular⟩ := (ih below).step accepted
    rw [replay, run]
    exact regular

/-- The newest block of a chain. -/
theorem Chained.last {accepts : Ledger → Block → Prop} {b : Block} {older : List Block}
    (admits : ∀ L b, accepts L b → Admitted V L b) (chained : Chained V accepts (b :: older)) :
    b.header.height = (replay V older).headers.length ∧
      ∃ cb, Applied V (replay V older) b cb (replay V (b :: older)) := by
  obtain ⟨below, accepted, _⟩ := chained
  obtain ⟨skip, now, accepted⟩ := admits _ _ accepted
  obtain ⟨cb, _, L', _, height, run, applied, _⟩ :=
    (Chained.regular (below.mono admits)).step accepted
  rw [replay, run]
  exact ⟨height, cb, applied⟩

theorem Chained.tip {accepts : Ledger → Block → Prop} {b : Block} {older : List Block}
    (admits : ∀ L b, accepts L b → Admitted V L b) (chained : Chained V accepts (b :: older)) :
    (replay V (b :: older)).tip? = some b.header := by
  obtain ⟨_, _, applied⟩ := chained.last admits
  rw [Ledger.tip?, applied.headers, List.getLast?_append]
  rfl

theorem Chained.below {accepts : Ledger → Block → Prop} {newer older : List Block}
    (chained : Chained V accepts (newer ++ older)) : Chained V accepts older := by
  induction newer with
  | nil => exact chained
  | cons b newer ih => exact ih chained.1

end Chain

end Obscura
