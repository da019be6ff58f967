import Obscura.Replay

/-! # Vault yields

The yield of a vault at a height under given rate tables, and the one that the wallet states in
a claim. The tables are variables of the program. A vault with a fixed term is paid by the rate
that was stored when it was opened; a flexible vault is paid by the table in force when it is
claimed, and by nothing once its yield no longer fits a word.
-/

namespace Obscura

open Wire Tx

/-- The variables of `pkg/config/vaults.go`. -/
structure VaultTables where
  terms : List UInt64
  ratesBps : List UInt64
  flexRateBps : UInt64
  blocksPerYear : UInt64

namespace VaultTables

variable (T : VaultTables)

/-- The values the program starts with. -/
def initial : VaultTables where
  terms := Config.vaultTerms
  ratesBps := Config.vaultRatesBps
  flexRateBps := Config.vaultFlexRateBps
  blocksPerYear := 262_800

/-- `VaultRateBps`: the rate of a term; none where no vault has the term. -/
def vaultRateBps (term : UInt64) : Option UInt64 :=
  if term = 0 then
    some T.flexRateBps
  else
    ((T.terms.zip T.ratesBps).find? fun entry => entry.1 == term).map Prod.snd

/-- The pro-rata yield, rounded down. -/
def accrued (principal : UInt64) (elapsedBlocks : Nat) : Nat :=
  principal.toNat * T.flexRateBps.toNat * elapsedBlocks / (T.blocksPerYear.toNat * 10_000)

/-- `VaultFlexYield`: the rate at the claim, for the blocks since the deposit. -/
def vaultFlexYield (principal : UInt64) (elapsedBlocks : Nat) : UInt64 :=
  if elapsedBlocks = 0 ∨ T.blocksPerYear = 0 then
    0
  else
    let y := T.accrued principal elapsedBlocks
    if y < 2 ^ 64 then UInt64.ofNat y else 0

/-- The blocks since a deposit. -/
def elapsed (v : VaultEntry) (claimHeight : UInt64) : Nat :=
  if v.depositHeight < claimHeight then (claimHeight - v.depositHeight).toNat else 0

/-- `vaultYieldAt`: the yield of an entry at a height. -/
def vaultYieldAt (v : VaultEntry) (claimHeight : UInt64) : Option UInt64 :=
  if !v.isFlexible then
    vaultYield v.amount v.rateBps
  else
    some (T.vaultFlexYield v.amount (elapsed v claimHeight))

/-- The entry of a deposit. -/
def vaultEntryOf (height : Nat) (vo : VaultOut) : VaultEntry where
  amount := vo.amount
  term := vo.term
  rateBps := (T.vaultRateBps vo.term).getD 0
  ownerKey := vo.ownerKey
  depositHeight := UInt64.ofNat height

/-- `wallet.VaultYield`. -/
def yieldOfTerm (principal term : UInt64) : Option UInt64 :=
  (T.vaultRateBps term).bind (vaultYield principal)

/-- The yield that `BuildVaultClaim` states. -/
def statedYield (principal term depositHeight claimHeight : UInt64) : Except String UInt64 :=
  if term = 0 then
    .ok (T.vaultFlexYield principal
      (if depositHeight < claimHeight then (claimHeight - depositHeight).toNat else 0))
  else
    match T.yieldOfTerm principal term with
    | some yield => .ok yield
    | none => .error "wallet: invalid vault term"

/-- The stated yield and the amount of the output. -/
def buildVaultClaim (viewOnly : Bool) (vaultID : Bytes)
    (principal term fee depositHeight claimHeight : UInt64) : Except String (UInt64 × UInt64) :=
  if viewOnly then
    .error "wallet: view-only wallet cannot receive claim proceeds"
  else if vaultID.length ≠ 32 then
    .error "wallet: bad vault id"
  else
    match T.statedYield principal term depositHeight claimHeight with
    | .error err => .error err
    | .ok yield =>
      let total := principal + yield
      if total < principal then
        .error "wallet: principal+yield overflow"
      else if total ≤ fee then
        .error "wallet: fee >= claim proceeds"
      else
        .ok (yield, total - fee)

/-! ## The tables of the ledger -/

theorem initial_vaultRateBps (term : UInt64) :
    initial.vaultRateBps term = Config.vaultRateBps term := rfl

theorem initial_vaultEntryOf (height : Nat) (vo : VaultOut) :
    initial.vaultEntryOf height vo = Obscura.vaultEntryOf height vo := rfl

theorem elapsed_eq (v : VaultEntry) (h : UInt64) :
    elapsed v h = h.toNat - v.depositHeight.toNat := by
  unfold elapsed
  split_ifs with later
  · rw [UInt64.toNat_sub_of_le _ _ (UInt64.le_of_lt later)]
  · have before := UInt64.not_lt.mp later
    rw [UInt64.le_iff_toNat_le] at before
    omega

theorem initial_vaultFlexYield (principal : UInt64) (blocks : Nat) :
    initial.vaultFlexYield principal blocks = Config.vaultFlexYield principal blocks := by
  unfold vaultFlexYield Config.vaultFlexYield
  by_cases none : blocks = 0
  · rw [if_pos (Or.inl none), if_pos (Or.inl none)]
  · rw [if_neg (not_or.mpr ⟨none, by decide⟩), if_neg (not_or.mpr ⟨none, by decide⟩)]
    rfl

theorem initial_vaultYieldAt (v : VaultEntry) (h : UInt64) :
    initial.vaultYieldAt v h = Obscura.vaultYieldAt v h.toNat := by
  unfold vaultYieldAt Obscura.vaultYieldAt
  rw [elapsed_eq, initial_vaultFlexYield]

/-- A vault as `applyBlock` records it under the tables. -/
def Recorded (v : VaultEntry) : Prop := ∃ height vo, v = T.vaultEntryOf height vo

theorem vaults_recorded {V : Primitives} {chain : List Block}
    (chained : Chained V (Admitted V) chain) {key : Bytes} {v : VaultEntry}
    (found : (replay V chain).vaults[key]? = some v) : initial.Recorded v := by
  induction chain with
  | nil =>
    have none : (genesisLedger V).vaults = ∅ := rfl
    rw [replay, none] at found
    exact absurd found (by simp)
  | cons b older ih =>
    obtain ⟨-, cb, applied⟩ := chained.last fun _ _ admitted => admitted
    rw [applied.vaults] at found
    rcases OrdMap.lookup_insertAll_or _ found with new | kept
    · obtain ⟨vo, -, same⟩ := List.mem_map.mp new
      exact ⟨b.header.height, vo, (Prod.mk.inj same).2.symm⟩
    · rw [OrdMap.lookup_eraseAll] at kept
      split_ifs at kept
      exact ih chained.1 kept

variable {T} {v : VaultEntry} {h h' : UInt64}

/-- What a claim may ask for at the later height: the yield at the earlier one, and what the
wallet states there. -/
def NeverLess (T : VaultTables) (v : VaultEntry) (h h' : UInt64) : Prop :=
  (∀ y, T.vaultYieldAt v h = some y → ∃ y', T.vaultYieldAt v h' = some y' ∧ y ≤ y') ∧
  ∀ viewOnly vaultID fee y paid,
    T.buildVaultClaim viewOnly vaultID v.amount v.term fee v.depositHeight h = .ok (y, paid) →
      ∃ y', T.vaultYieldAt v h' = some y' ∧ y ≤ y'

/-- The wallet states the yield at the height of the claim. -/
theorem buildVaultClaim_yield (recorded : T.Recorded v) {viewOnly : Bool} {vaultID : Bytes}
    {fee y paid : UInt64}
    (built : T.buildVaultClaim viewOnly vaultID v.amount v.term fee v.depositHeight h =
      .ok (y, paid)) :
    T.vaultYieldAt v h = some y := by
  obtain ⟨height, vo, same⟩ := recorded
  have rate : v.rateBps = (T.vaultRateBps v.term).getD 0 := by rw [same]; rfl
  unfold buildVaultClaim at built
  split_ifs at built
  cases stated : T.statedYield v.amount v.term v.depositHeight h with
  | error err =>
    rw [stated] at built
    cases built
  | ok yield =>
    rw [stated] at built
    dsimp only at built
    split_ifs at built
    obtain ⟨rfl, -⟩ := Prod.mk.inj (Except.ok.inj built)
    unfold statedYield at stated
    rw [vaultYieldAt, VaultEntry.isFlexible]
    by_cases flexible : v.term = 0
    · rw [if_pos flexible] at stated
      rw [if_neg (by simp [flexible])]
      exact congrArg some (Except.ok.inj stated)
    · rw [if_neg flexible, yieldOfTerm] at stated
      rw [if_pos (by simp [flexible]), rate]
      cases known : T.vaultRateBps v.term with
      | none =>
        rw [known] at stated
        cases stated
      | some bps =>
        rw [known, Option.bind_some] at stated
        rw [Option.getD_some]
        cases paid : vaultYield v.amount bps with
        | none =>
          rw [paid] at stated
          cases stated
        | some y =>
          rw [paid] at stated
          exact congrArg some (Except.ok.inj stated)

theorem vaultYieldAt_flexible (flexible : v.isFlexible = true) (h : UInt64) :
    T.vaultYieldAt v h = some (T.vaultFlexYield v.amount (elapsed v h)) := by
  rw [vaultYieldAt, flexible]
  rfl

theorem vaultYieldAt_fixed (fixed : v.isFlexible = false) (h : UInt64) :
    T.vaultYieldAt v h = vaultYield v.amount v.rateBps := by
  rw [vaultYieldAt, fixed]
  rfl

theorem vaultFlexYield_toNat (principal : UInt64) (blocks : Nat) :
    (T.vaultFlexYield principal blocks).toNat =
      if T.accrued principal blocks < 2 ^ 64 then T.accrued principal blocks else 0 := by
  unfold vaultFlexYield
  split
  · rename_i none
    have zero : T.accrued principal blocks = 0 := by
      unfold accrued
      rcases none with none | none
      · rw [none, mul_zero, Nat.zero_div]
      · rw [none, UInt64.toNat_zero, zero_mul, Nat.div_zero]
    rw [zero]
    rfl
  · dsimp only
    split_ifs with small
    · exact UInt64.toNat_ofNat_of_lt' small
    · rfl

theorem accrued_mono (principal : UInt64) {first second : Nat} (le : first ≤ second) :
    T.accrued principal first ≤ T.accrued principal second :=
  Nat.div_le_div_right (Nat.mul_le_mul_left _ le)

/-- A later claim pays no less, exactly when. -/
theorem neverLess_iff (recorded : T.Recorded v) (order : h ≤ h') :
    NeverLess T v h h' ↔ v.isFlexible = false ∨ T.accrued v.amount (elapsed v h') < 2 ^ 64 ∨
      T.accrued v.amount (elapsed v h) = 0 ∨ 2 ^ 64 ≤ T.accrued v.amount (elapsed v h) := by
  have yield : NeverLess T v h h' ↔
      ∀ y, T.vaultYieldAt v h = some y → ∃ y', T.vaultYieldAt v h' = some y' ∧ y ≤ y' :=
    ⟨And.left, fun grows => ⟨grows, fun _ _ _ y _ built =>
      grows y (buildVaultClaim_yield recorded built)⟩⟩
  rw [yield]
  cases kind : v.isFlexible with
  | false =>
    refine iff_of_true (fun y paid => ⟨y, ?_, UInt64.le_refl y⟩) (Or.inl rfl)
    rw [vaultYieldAt_fixed kind] at paid ⊢
    exact paid
  | true =>
    have later : T.accrued v.amount (elapsed v h) ≤ T.accrued v.amount (elapsed v h') := by
      refine accrued_mono v.amount ?_
      have heights := UInt64.le_iff_toNat_le.mp order
      rw [elapsed_eq, elapsed_eq]
      omega
    simp only [vaultYieldAt_flexible kind, Option.some.injEq, forall_eq', exists_eq_left',
      UInt64.le_iff_toNat_le, vaultFlexYield_toNat, Bool.true_eq_false, false_or]
    split_ifs
    · omega
    · omega
    · omega
    · omega

/-- Tables under which a flexible vault earns its amount in the given number of blocks. -/
def doubling (blocks : UInt64) : VaultTables := ⟨[], [], 10_000, blocks⟩

/-- Tables under which flexible vaults earn nothing. -/
def idle : VaultTables := ⟨[], [], 0, 1⟩

/-- The rate table makes no difference, exactly when. -/
theorem sameUnderTables_iff (v : VaultEntry) (h : UInt64) :
    (∀ T' : VaultTables, T'.vaultYieldAt v h = T.vaultYieldAt v h) ↔
      v.isFlexible = false ∨ v.amount = 0 ∨ h ≤ v.depositHeight := by
  constructor
  · intro same
    by_contra other
    rw [not_or, not_or, Bool.not_eq_false, UInt64.not_le] at other
    obtain ⟨flexible, some, later⟩ := other
    have paid := (same (doubling (h - v.depositHeight))).trans (same idle).symm
    have blocks : elapsed v h = (h - v.depositHeight).toNat := if_pos later
    have positive : 0 < elapsed v h := by
      have heights := UInt64.lt_iff_toNat_lt.mp later
      rw [elapsed_eq]
      omega
    have whole : (doubling (h - v.depositHeight)).accrued v.amount (elapsed v h) =
        v.amount.toNat := by
      have product : v.amount.toNat * 10_000 * elapsed v h =
          v.amount.toNat * (elapsed v h * 10_000) := by ring
      rw [accrued, doubling]
      dsimp only
      rw [← blocks]
      exact (congrArg (· / _) product).trans (Nat.mul_div_cancel _ (by omega))
    have nothing : idle.accrued v.amount (elapsed v h) = 0 := by
      rw [accrued, idle]
      simp
    rw [vaultYieldAt_flexible flexible, vaultYieldAt_flexible flexible, Option.some.injEq,
      ← UInt64.toNat_inj, vaultFlexYield_toNat, vaultFlexYield_toNat, whole, nothing,
      if_pos v.amount.toNat_lt, if_pos (by decide)] at paid
    exact some (UInt64.toNat_inj.mp paid)
  · have nothing : ∀ T' : VaultTables, T'.accrued v.amount (elapsed v h) = 0 →
        T'.vaultFlexYield v.amount (elapsed v h) = 0 := fun T' zero => by
      rw [← UInt64.toNat_inj, vaultFlexYield_toNat, zero]
      rfl
    rintro (fixed | none | early) T'
    · rw [vaultYieldAt_fixed fixed, vaultYieldAt_fixed fixed]
    · have zero : ∀ T' : VaultTables, T'.accrued v.amount (elapsed v h) = 0 := fun T' => by
        rw [accrued, none]
        simp
      unfold vaultYieldAt
      rw [nothing T' (zero T'), nothing T (zero T)]
    · have zero : ∀ T' : VaultTables, T'.accrued v.amount (elapsed v h) = 0 := fun T' => by
        rw [accrued, elapsed, if_neg (UInt64.not_lt.mpr early), mul_zero, Nat.zero_div]
      unfold vaultYieldAt
      rw [nothing T' (zero T'), nothing T (zero T)]

/-- **The promise of a vault.** Claims at a later height are never worth less and tables in force
at the claim do not matter exactly for vaults with a fixed term and for claims that are worth
nothing; under the tables of the deposit a claim is never worth less exactly unless the yield of
a flexible vault outgrows a word in between. -/
theorem vault_promise (recorded : T.Recorded v) (order : h ≤ h') :
    (NeverLess T v h h' ∧ (∀ T' : VaultTables, T'.vaultYieldAt v h' = T.vaultYieldAt v h') ↔
      v.isFlexible = false ∨ v.amount = 0 ∨ h' ≤ v.depositHeight) ∧
    (NeverLess T v h h' ↔
      v.isFlexible = false ∨ T.accrued v.amount (elapsed v h') < 2 ^ 64 ∨
        T.accrued v.amount (elapsed v h) = 0 ∨ 2 ^ 64 ≤ T.accrued v.amount (elapsed v h)) := by
  refine ⟨?_, neverLess_iff recorded order⟩
  rw [sameUnderTables_iff, neverLess_iff recorded order]
  refine ⟨And.right, fun promised => ⟨?_, promised⟩⟩
  rcases promised with fixed | none | early
  · exact Or.inl fixed
  · refine Or.inr (Or.inl ?_)
    rw [accrued, none]
    simp
  · refine Or.inr (Or.inl ?_)
    rw [accrued, elapsed, if_neg (UInt64.not_lt.mpr early), mul_zero, Nat.zero_div]
    decide

/-! ## A promise that is not kept -/

/-- A deposit of ten million coins without a term. -/
def deposit : VaultOut where
  vaultKey := List.replicate 32 1
  ownerKey := List.replicate 32 2
  amount := 10_000_000_000_000_000_000
  term := 0

/-- The vault of a large deposit without a term. -/
def vault : VaultEntry := initial.vaultEntryOf 100 deposit

theorem vault_earned : initial.vaultYieldAt vault 262_900 = some 500_000_000_000_000_000 ∧
    initial.vaultYieldAt vault 10_000_100 = some 0 ∧
    ({ initial with flexRateBps := 100 } : VaultTables).vaultYieldAt vault 262_900 =
      some 100_000_000_000_000_000 := by
  refine ⟨?_, ?_, ?_⟩ <;> decide

/-- **A changed promise.** After a year the vault has earned half a million coins, but less if
the rate has been lowered in the meantime, and nothing later on. -/
theorem vault_promise_broken : ¬NeverLess initial vault 262_900 10_000_100 ∧
    ¬∀ T : VaultTables, T.vaultYieldAt vault 262_900 = initial.vaultYieldAt vault 262_900 := by
  obtain ⟨earned, nothing, lowered⟩ := vault_earned
  constructor
  · rintro ⟨grows, -⟩
    obtain ⟨y, paid, le⟩ := grows _ earned
    rw [nothing] at paid
    rw [← Option.some.inj paid] at le
    exact absurd le (by decide)
  · intro same
    have changed := same { initial with flexRateBps := 100 }
    rw [lowered, earned] at changed
    exact absurd (Option.some.inj changed) (by decide)

/-- A vault with a fixed term keeps its promise. -/
theorem vault_promise_fixed :
    let v := initial.vaultEntryOf 100 { deposit with term := 21_600 }
    NeverLess initial v 21_700 30_000 ∧
      ∀ T' : VaultTables, T'.vaultYieldAt v 30_000 = initial.vaultYieldAt v 30_000 :=
  (vault_promise ⟨100, { deposit with term := 21_600 }, rfl⟩ (by decide)).1.mpr (Or.inl rfl)

end VaultTables

end Obscura
