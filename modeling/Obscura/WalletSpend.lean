import Mathlib
import Obscura.Wallet

/-! # Spending from a wallet

How a wallet picks the outputs that a transaction spends, and the reservations that keep two
transactions under way apart. Between two scans, whatever is built, replaced at a higher fee and
released in whatever order: every transaction under way spends exactly its amount, its change and
its fee, no two of them share an input, and an output is reserved exactly while one of them
spends it (`spends_apart`). A payment is built exactly when the spendable outputs cover it
(`payment_exact`).
-/

namespace Obscura.Wallet

/-- A transaction as the wallet plans it; an output for the change is there unless it is zero. -/
structure Draft where
  inputs : List Hash
  amount : UInt64
  change : UInt64
  fee : UInt64

section Build

variable {Point Scalar : Type}

/-- `addCheck`: the sum and whether it was cut. -/
def addCheck (a b : UInt64) : UInt64 × Bool := (a + b, a + b < a)

/-- The test that the loops over the outputs make: unspent, unreserved, mature and unlocked. -/
def spendable (spendHeight : Nat) (o : OwnedOutput Scalar) : Bool :=
  !(o.spent || o.reserved) &&
    !(o.isCoinbase && spendHeight < o.height + Config.coinbaseMaturity) &&
    !decide (spendHeight < o.out.lockUntil.toNat)

/-- `SpendableOutputs`. -/
def spendableOutputs (w : Wallet Point Scalar) (spendHeight : Nat) : List (OwnedOutput Scalar) :=
  w.outputs.filter (spendable spendHeight)

/-- The loop that selects in order until there is enough. -/
def selectFrom (spendHeight : Nat) (enough : UInt64 → Bool) :
    List (OwnedOutput Scalar) → UInt64 → Except String (List (OwnedOutput Scalar) × UInt64)
  | [], total => .ok ([], total)
  | o :: rest, total =>
    if !spendable spendHeight o then selectFrom spendHeight enough rest total
    else if (addCheck total o.amount).2 then .error "wallet: balance overflow"
    else if enough (addCheck total o.amount).1 then .ok ([o], (addCheck total o.amount).1)
    else (selectFrom spendHeight enough rest (addCheck total o.amount).1).map fun found =>
      (o :: found.1, found.2)

/-- The sum that `buildSpend` makes of its inputs. -/
def sumInputs : List (OwnedOutput Scalar) → UInt64 → Except String UInt64
  | [], total => .ok total
  | o :: rest, total =>
    if (addCheck total o.amount).2 then .error "wallet: balance overflow"
    else sumInputs rest (addCheck total o.amount).1

/-- Mark the outputs with these keys; an output is named by its one-time key. -/
def setReserved (w : Wallet Point Scalar) (refs : List Hash) (flag : Bool) : Wallet Point Scalar :=
  { w with outputs := w.outputs.map fun o =>
      if o.out.oneTimeKey ∈ refs then { o with reserved := flag } else o }

variable (prove : Draft → Except String Unit)

/-- The commitments and proofs of the planned transaction may fail; then nothing is reserved. -/
def buildSpend (w : Wallet Point Scalar) (selected : List (OwnedOutput Scalar))
    (amount fee : UInt64) : Except String Draft × Wallet Point Scalar :=
  if (addCheck amount fee).2 then (.error "wallet: amount+fee overflow", w)
  else match sumInputs selected 0 with
    | .error error => (.error error, w)
    | .ok total =>
      if total < (addCheck amount fee).1 then
        (.error "wallet: insufficient spendable funds", w)
      else
        let draft : Draft :=
          { inputs := selected.map fun o => o.out.oneTimeKey, amount, fee
            change := total - (addCheck amount fee).1 }
        match prove draft with
        | .error error => (.error error, w)
        | .ok () => (.ok draft, w.setReserved draft.inputs true)

/-- `CreateTransaction`: the outputs are selected, then reserved. -/
def createTransaction (w : Wallet Point Scalar) (height : Nat) (amount fee : UInt64) :
    Except String Draft × Wallet Point Scalar :=
  if w.keys.isViewOnly then (.error "wallet: view-only wallet cannot spend", w)
  else if amount = 0 then (.error "wallet: amount must be positive", w)
  else if (addCheck amount fee).2 then (.error "wallet: amount+fee overflow", w)
  else match selectFrom (height + 1) (fun total => (addCheck amount fee).1 ≤ total) w.outputs 0 with
    | .error error => (.error error, w)
    | .ok (selected, total) =>
      if total < (addCheck amount fee).1 then
        (.error "wallet: insufficient spendable funds", w)
      else w.buildSpend prove selected amount fee

/-- The output at a place of the wallet; `none` is a nil output. -/
def createTransactionFrom (w : Wallet Point Scalar) (height : Nat) (place : Nat)
    (amount fee : UInt64) : Except String Draft × Wallet Point Scalar :=
  if w.keys.isViewOnly then (.error "wallet: view-only wallet cannot spend", w)
  else match w.outputs[place]? with
    | none => (.error "wallet: output unavailable", w)
    | some o =>
      if o.spent || o.reserved then (.error "wallet: output unavailable", w)
      else if o.isCoinbase && height + 1 < o.height + Config.coinbaseMaturity then
        (.error "wallet: immature coinbase", w)
      else if height + 1 < o.out.lockUntil.toNat then (.error "wallet: time-locked output", w)
      else if (addCheck amount fee).2 || o.amount < (addCheck amount fee).1 then
        (.error "wallet: output does not cover amount+fee", w)
      else w.buildSpend prove [o] amount fee

/-- `CreateSweepTransaction`: every output that can be spent. -/
def createSweepTransaction (w : Wallet Point Scalar) (height : Nat) (fee : UInt64) :
    Except String Draft × Wallet Point Scalar :=
  if w.keys.isViewOnly then (.error "wallet: view-only wallet cannot spend", w)
  else match selectFrom (height + 1) (fun _ => false) w.outputs 0 with
    | .error error => (.error error, w)
    | .ok (selected, total) =>
      if selected.length = 0 ∨ total ≤ fee then
        (.error "wallet: nothing to sweep (balance does not cover the fee)", w)
      else w.buildSpend prove selected (total - fee) fee

/-- The outputs of the wallet that are among the references, each key once. -/
def ownInputs (refs : List Hash) :
    List (OwnedOutput Scalar) → (seen : List Hash) → List (OwnedOutput Scalar)
  | [], _ => []
  | o :: rest, seen =>
    if o.out.oneTimeKey ∈ refs ∧ o.out.oneTimeKey ∉ seen then
      o :: ownInputs refs rest (o.out.oneTimeKey :: seen)
    else ownInputs refs rest seen

/-- `BumpFee`: the same outputs under a larger fee. -/
def bumpFee (w : Wallet Point Scalar) (prev : Draft) (amount newFee : UInt64) :
    Except String Draft × Wallet Point Scalar :=
  if w.keys.isViewOnly then (.error "wallet: view-only wallet cannot spend", w)
  else if newFee ≤ prev.fee then (.error "wallet: new fee must exceed the original fee", w)
  else if prev.inputs.length = 0 then
    (.error "wallet: can only bump transparent-input transactions", w)
  else if (ownInputs prev.inputs w.outputs []).length ≠ prev.inputs.dedup.length then
    (.error "wallet: original inputs are not all owned/known to this wallet", w)
  else w.buildSpend prove (ownInputs prev.inputs w.outputs []) amount newFee

/-- `ReleaseReservation`: the outputs of a transaction are free again. -/
def releaseReservation (w : Wallet Point Scalar) (t : Draft) : Wallet Point Scalar :=
  w.setReserved t.inputs false

/-! ## Runs -/

/-- The transactions under way are those built, less those released or replaced. -/
structure Desk (Point Scalar : Type) where
  wallet : Wallet Point Scalar
  pending : List Draft := []

/-- What a wallet is asked. -/
inductive Order where
  | create (height : Nat) (amount fee : UInt64)
  | createFrom (height place : Nat) (amount fee : UInt64)
  | sweep (height : Nat) (fee : UInt64)
  | bump (place : Nat) (amount newFee : UInt64)
  | release (place : Nat)

/-- A built transaction is under way from then on. -/
def Desk.file (d : Desk Point Scalar) (out : Except String Draft × Wallet Point Scalar)
    (put : Draft → List Draft) : Desk Point Scalar :=
  match out with
  | (.ok draft, w) => ⟨w, put draft⟩
  | (.error _, w) => { d with wallet := w }

/-- The wallet and its pending transactions after an order. -/
def Desk.step (d : Desk Point Scalar) : Order → Desk Point Scalar
  | .create height amount fee =>
    d.file (d.wallet.createTransaction prove height amount fee) fun t => d.pending ++ [t]
  | .createFrom height place amount fee =>
    d.file (d.wallet.createTransactionFrom prove height place amount fee) fun t =>
      d.pending ++ [t]
  | .sweep height fee =>
    d.file (d.wallet.createSweepTransaction prove height fee) fun t => d.pending ++ [t]
  | .bump place amount newFee =>
    match d.pending[place]? with
    | none => d
    | some prev =>
      d.file (d.wallet.bumpFee prove prev amount newFee) fun t => d.pending.set place t
  | .release place =>
    match d.pending[place]? with
    | none => d
    | some t => ⟨d.wallet.releaseReservation t, d.pending.eraseIdx place⟩

/-- The wallet and its pending transactions after a list of orders. -/
def Desk.run (d : Desk Point Scalar) (orders : List Order) : Desk Point Scalar :=
  orders.foldl (Desk.step prove) d

/-! ## What the builders do -/

variable {prove}

theorem addCheck_toNat {a b : UInt64} (fits : ¬ (addCheck a b).2 = true) :
    (addCheck a b).1.toNat = a.toNat + b.toNat := by
  unfold addCheck at *
  have large : ¬ a + b < a := by simpa using fits
  rw [UInt64.lt_iff_toNat_lt, UInt64.toNat_add] at large
  rw [UInt64.toNat_add]
  have := a.toNat_lt
  have := b.toNat_lt
  omega

/-- The sum of the amounts. -/
def values (selected : List (OwnedOutput Scalar)) : Nat :=
  (selected.map fun o => o.amount.toNat).sum

theorem sumInputs_ok {selected : List (OwnedOutput Scalar)} {start total : UInt64}
    (sums : sumInputs selected start = .ok total) :
    total.toNat = start.toNat + values selected := by
  induction selected generalizing start with
  | nil =>
    cases sums
    rfl
  | cons o rest ih =>
    rw [sumInputs] at sums
    split_ifs at sums with overflows
    rw [ih sums, addCheck_toNat overflows, values, values, List.map_cons, List.sum_cons,
      Nat.add_assoc]

/-- What a selection takes. -/
theorem selectFrom_ok {height : Nat} {enough : UInt64 → Bool}
    {outputs selected : List (OwnedOutput Scalar)} {start total : UInt64}
    (selects : selectFrom height enough outputs start = .ok (selected, total)) :
    selected.Sublist (outputs.filter (spendable height)) := by
  induction outputs generalizing selected start with
  | nil =>
    cases selects
    exact List.nil_sublist _
  | cons o rest ih =>
    rw [selectFrom] at selects
    split_ifs at selects with unspendable overflows reached
    · have skipped : ¬ spendable height o = true := by simpa using unspendable
      rw [List.filter_cons_of_neg skipped]
      exact ih selects
    · cases selects
      rw [List.filter_cons_of_pos (by simpa using unspendable)]
      exact (List.nil_sublist _).cons_cons o
    · rw [List.filter_cons_of_pos (by simpa using unspendable)]
      cases found : selectFrom height enough rest (addCheck start o.amount).1 with
      | error error =>
        rw [found] at selects
        cases selects
      | ok out =>
        rw [found] at selects
        cases selects
        exact (ih found).cons_cons o

/-- The keys of a list of outputs. -/
def refsOf (outputs : List (OwnedOutput Scalar)) : List Hash :=
  outputs.map fun o => o.out.oneTimeKey

/-- A transaction built from selected outputs. -/
structure Built (w : Wallet Point Scalar) (selected : List (OwnedOutput Scalar)) (t : Draft)
    (w' : Wallet Point Scalar) : Prop where
  inputs : t.inputs = refsOf selected
  balance : values selected = t.amount.toNat + t.change.toNat + t.fee.toNat
  wallet : w' = w.setReserved t.inputs true

/-- What a builder can do: nothing, or build from outputs of which `among` holds. -/
def Builds (w : Wallet Point Scalar) (among : List (OwnedOutput Scalar) → Prop)
    (out : Except String Draft × Wallet Point Scalar) : Prop :=
  (∃ error, out = (.error error, w)) ∨
    ∃ selected t w', among selected ∧ Built w selected t w' ∧ out = (.ok t, w')

variable {w : Wallet Point Scalar}

/-- A transaction of given inputs. -/
theorem buildSpend_builds {selected : List (OwnedOutput Scalar)}
    {among : List (OwnedOutput Scalar) → Prop} (holds : among selected) (amount fee : UInt64) :
    Builds w among (w.buildSpend prove selected amount fee) := by
  unfold buildSpend
  split_ifs with overflows
  · exact .inl ⟨_, rfl⟩
  cases sums : sumInputs selected 0 with
  | error error => exact .inl ⟨_, rfl⟩
  | ok total =>
    dsimp only
    split_ifs with short
    · exact .inl ⟨_, rfl⟩
    cases proves : prove ⟨selected.map fun o => o.out.oneTimeKey, amount,
        total - (addCheck amount fee).1, fee⟩ with
    | error error => exact .inl ⟨_, rfl⟩
    | ok =>
      refine .inr ⟨selected, _, _, holds, ⟨rfl, ?_, rfl⟩, rfl⟩
      have sum := sumInputs_ok sums
      have need := addCheck_toNat overflows
      have covers := UInt64.not_lt.mp short
      have zero : (0 : UInt64).toNat = 0 := rfl
      rw [UInt64.toNat_sub_of_le _ _ covers]
      rw [UInt64.le_iff_toNat_le] at covers
      dsimp only
      omega

/-- What `CreateTransaction` builds. -/
theorem createTransaction_builds (height : Nat) (amount fee : UInt64) :
    Builds w (fun selected => selected.Sublist (w.spendableOutputs (height + 1)))
      (w.createTransaction prove height amount fee) := by
  unfold createTransaction
  split_ifs
  · exact .inl ⟨_, rfl⟩
  · exact .inl ⟨_, rfl⟩
  · exact .inl ⟨_, rfl⟩
  cases selects : selectFrom (height + 1) (fun total => (addCheck amount fee).1 ≤ total)
      w.outputs 0 with
  | error error => exact .inl ⟨_, rfl⟩
  | ok out =>
    dsimp only
    split_ifs
    · exact .inl ⟨_, rfl⟩
    · refine buildSpend_builds ?_ amount fee
      exact selectFrom_ok selects

theorem createSweepTransaction_builds (height : Nat) (fee : UInt64) :
    Builds w (fun selected => selected.Sublist (w.spendableOutputs (height + 1)))
      (w.createSweepTransaction prove height fee) := by
  unfold createSweepTransaction
  split_ifs
  · exact .inl ⟨_, rfl⟩
  cases selects : selectFrom (height + 1) (fun _ => false) w.outputs 0 with
  | error error => exact .inl ⟨_, rfl⟩
  | ok out =>
    dsimp only
    split_ifs
    · exact .inl ⟨_, rfl⟩
    · refine buildSpend_builds ?_ _ fee
      exact selectFrom_ok selects

/-- What the selection from a place on builds. -/
theorem createTransactionFrom_builds (height place : Nat) (amount fee : UInt64) :
    Builds w (fun selected => selected.Sublist (w.spendableOutputs (height + 1)))
      (w.createTransactionFrom prove height place amount fee) := by
  unfold createTransactionFrom
  split_ifs
  · exact .inl ⟨_, rfl⟩
  cases found : w.outputs[place]? with
  | none => exact .inl ⟨_, rfl⟩
  | some o =>
    dsimp only
    split_ifs with taken immature locked short
    · exact .inl ⟨_, rfl⟩
    · exact .inl ⟨_, rfl⟩
    · exact .inl ⟨_, rfl⟩
    · exact .inl ⟨_, rfl⟩
    · refine buildSpend_builds ?_ amount fee
      refine List.singleton_sublist.mpr (List.mem_filter.mpr ⟨List.mem_of_getElem? found, ?_⟩)
      unfold spendable
      rw [Bool.not_eq_true] at taken immature
      rw [taken, immature, decide_eq_false locked]
      rfl

theorem Builds.free {height : Nat} {t : Draft} {w' : Wallet Point Scalar}
    (builds : Builds w (fun selected => selected.Sublist (w.spendableOutputs height))
      (.ok t, w')) :
    t.inputs.Sublist ((w.spendableOutputs height).map fun o => o.out.oneTimeKey) := by
  rcases builds with ⟨error, failed⟩ | ⟨selected, t', w'', free, built, done⟩
  · cases failed
  · cases done
    rw [built.inputs]
    exact free.map _

theorem ownInputs_spec (refs : List Hash) (outputs : List (OwnedOutput Scalar))
    (seen : List Hash) :
    (ownInputs refs outputs seen).Sublist outputs ∧
      (∀ ref ∈ refsOf (ownInputs refs outputs seen), ref ∈ refs ∧ ref ∉ seen) ∧
        (refsOf (ownInputs refs outputs seen)).Nodup := by
  induction outputs generalizing seen with
  | nil => exact ⟨List.nil_sublist _, fun _ inside => absurd inside List.not_mem_nil,
      List.nodup_nil⟩
  | cons o rest ih =>
    rw [ownInputs]
    split_ifs with own
    · obtain ⟨sub, among, nodup⟩ := ih (o.out.oneTimeKey :: seen)
      refine ⟨sub.cons_cons o, ?_, ?_⟩
      · intro ref inside
        rcases List.mem_cons.mp inside with rfl | inside
        · exact own
        · exact (among ref inside).imp_right fun fresh old => fresh (List.mem_cons_of_mem _ old)
      · exact List.nodup_cons.mpr
          ⟨fun inside => (among _ inside).2 List.mem_cons_self, nodup⟩
    · obtain ⟨sub, among, nodup⟩ := ih seen
      exact ⟨sub.cons o, among, nodup⟩

theorem bumpFee_builds {prev : Draft} (once : prev.inputs.Nodup) (amount newFee : UInt64) :
    Builds w (fun selected => selected.Sublist w.outputs ∧ (refsOf selected).Perm prev.inputs)
      (w.bumpFee prove prev amount newFee) := by
  unfold bumpFee
  split_ifs with viewOnly low empty missing
  · exact .inl ⟨_, rfl⟩
  · exact .inl ⟨_, rfl⟩
  · exact .inl ⟨_, rfl⟩
  · exact .inl ⟨_, rfl⟩
  · obtain ⟨sub, among, nodup⟩ := ownInputs_spec prev.inputs w.outputs []
    refine buildSpend_builds ?_ amount newFee
    refine ⟨sub, ?_⟩
    have all := not_not.mp missing
    rw [once.dedup] at all
    have within := List.subperm_of_subset nodup fun ref inside => (among ref inside).1
    refine within.perm_of_length_le ?_
    rw [refsOf, List.length_map, all]

/-! ## When a payment is made -/

theorem addCheck_fits {a b : UInt64} :
    (addCheck a b).2 = false ↔ a.toNat + b.toNat < 2 ^ 64 := by
  unfold addCheck
  rw [decide_eq_false_iff_not, UInt64.lt_iff_toNat_lt, UInt64.toNat_add]
  have := a.toNat_lt
  have := b.toNat_lt
  omega

theorem values_cons (o : OwnedOutput Scalar) (rest : List (OwnedOutput Scalar)) :
    values (o :: rest) = o.amount.toNat + values rest := by
  rw [values, List.map_cons, List.sum_cons, values]

theorem sumInputs_fits {selected : List (OwnedOutput Scalar)} {start : UInt64}
    (small : start.toNat + values selected < 2 ^ 64) :
    ∃ total, sumInputs selected start = .ok total := by
  induction selected generalizing start with
  | nil => exact ⟨start, rfl⟩
  | cons o rest ih =>
    rw [values_cons] at small
    have fits : (addCheck start o.amount).2 = false := addCheck_fits.mpr (by omega)
    have sum := addCheck_toNat (Bool.eq_false_iff.mp fits)
    rw [sumInputs, if_neg (Bool.eq_false_iff.mp fits)]
    exact ih (by omega)

theorem selectFrom_covers {height : Nat} {need : UInt64} {outputs : List (OwnedOutput Scalar)}
    {start : UInt64}
    (small : start.toNat + values (outputs.filter (spendable height)) < 2 ^ 64) :
    ∃ selected total, selectFrom height (fun total => need ≤ total) outputs start =
        .ok (selected, total) ∧ total.toNat = start.toNat + values selected ∧
      (need ≤ total ∨ values selected = values (outputs.filter (spendable height))) := by
  induction outputs generalizing start with
  | nil => exact ⟨[], start, rfl, rfl, .inr rfl⟩
  | cons o rest ih =>
    rw [selectFrom]
    by_cases free : spendable height o = true
    · rw [List.filter_cons_of_pos free, values_cons] at small ⊢
      have fits : (addCheck start o.amount).2 = false := addCheck_fits.mpr (by omega)
      have sum := addCheck_toNat (Bool.eq_false_iff.mp fits)
      rw [if_neg (by simp [free]), if_neg (Bool.eq_false_iff.mp fits)]
      by_cases reached : need ≤ (addCheck start o.amount).1
      · refine ⟨[o], _, if_pos (decide_eq_true reached), ?_, .inl reached⟩
        rw [sum, values_cons]
        rfl
      · have next : (addCheck start o.amount).1.toNat +
            values (rest.filter (spendable height)) < 2 ^ 64 := by omega
        obtain ⟨selected, total, found, value, covers⟩ := ih next
        refine ⟨o :: selected, total, ?_, ?_, covers.imp_right fun all => ?_⟩
        · rw [if_neg (by simpa using reached), found]
          rfl
        · rw [value, sum, values_cons]
          omega
        · rw [values_cons, all]
    · rw [List.filter_cons_of_neg free] at small ⊢
      rw [if_pos (by simpa using free)]
      exact ih small

theorem buildSpend_ok (proves : ∀ t, prove t = .ok ()) {selected : List (OwnedOutput Scalar)}
    {amount fee : UInt64} (covers : amount.toNat + fee.toNat ≤ values selected)
    (small : values selected < 2 ^ 64) :
    ∃ t w', w.buildSpend prove selected amount fee = (.ok t, w') := by
  have fits : (addCheck amount fee).2 = false := addCheck_fits.mpr (by omega)
  have need := addCheck_toNat (Bool.eq_false_iff.mp fits)
  have zero : (0 : UInt64).toNat = 0 := rfl
  obtain ⟨total, sums⟩ : ∃ total, sumInputs selected 0 = .ok total := sumInputs_fits (by omega)
  have sum := sumInputs_ok sums
  have enough : ¬ total < (addCheck amount fee).1 := by
    rw [UInt64.lt_iff_toNat_lt]
    omega
  unfold buildSpend
  rw [if_neg (Bool.eq_false_iff.mp fits), sums]
  dsimp only
  rw [if_neg enough, proves]
  exact ⟨_, _, rfl⟩

/-- Where the proofs are made and the spendable outputs are together below `2^64`, a payment is
built exactly when the wallet can sign, the amount is positive and the spendable outputs cover
the amount and the fee. -/
theorem payment_exact {prove : Draft → Except String Unit} {w : Wallet Point Scalar}
    {height : Nat} (proves : ∀ t, prove t = .ok ())
    (small : ((w.spendableOutputs (height + 1)).map fun o => o.amount.toNat).sum < 2 ^ 64)
    (amount fee : UInt64) :
    (∃ t w', w.createTransaction prove height amount fee = (.ok t, w')) ↔
      w.keys.isViewOnly = false ∧ amount ≠ 0 ∧ amount.toNat + fee.toNat ≤
        ((w.spendableOutputs (height + 1)).map fun o => o.amount.toNat).sum := by
  have zero : (0 : UInt64).toNat = 0 := rfl
  have bounded : (0 : UInt64).toNat + values (w.outputs.filter (spendable (height + 1))) <
      2 ^ 64 := by
    rw [zero, Nat.zero_add]
    exact small
  obtain ⟨selected, total, found, value, covers⟩ :
      ∃ selected total, selectFrom (height + 1) (fun total => (addCheck amount fee).1 ≤ total)
          w.outputs 0 = .ok (selected, total) ∧ total.toNat = (0 : UInt64).toNat + values selected ∧
        ((addCheck amount fee).1 ≤ total ∨
          values selected = values (w.outputs.filter (spendable (height + 1)))) :=
    selectFrom_covers bounded
  rw [zero, Nat.zero_add] at value
  have part : values selected ≤ values (w.spendableOutputs (height + 1)) :=
    ((selectFrom_ok found).map _).sum_le_sum fun _ _ => Nat.zero_le _
  change values (w.spendableOutputs (height + 1)) < 2 ^ 64 at small
  change _ ↔ _ ∧ _ ∧ _ ≤ values (w.spendableOutputs (height + 1))
  unfold createTransaction
  split_ifs with viewOnly nothing overflows
  · refine iff_of_false (fun built => ?_) fun may => ?_
    · obtain ⟨t, w', built⟩ := built
      cases built
    · rw [viewOnly] at may
      cases may.1
  · refine iff_of_false (fun built => ?_) fun may => may.2.1 nothing
    obtain ⟨t, w', built⟩ := built
    cases built
  · refine iff_of_false (fun built => ?_) fun may => ?_
    · obtain ⟨t, w', built⟩ := built
      cases built
    · have fits : (addCheck amount fee).2 = false :=
        addCheck_fits.mpr (may.2.2.trans_lt small)
      rw [fits] at overflows
      cases overflows
  · have need := addCheck_toNat overflows
    rw [found]
    dsimp only
    have signs : w.keys.isViewOnly = false := Bool.eq_false_iff.mpr viewOnly
    by_cases short : total < (addCheck amount fee).1
    · rw [if_pos short]
      refine iff_of_false (fun built => ?_) fun may => ?_
      · obtain ⟨t, w', built⟩ := built
        cases built
      · have all := covers.resolve_left (UInt64.not_le.mpr short)
        have lacks := UInt64.lt_iff_toNat_lt.mp short
        change values selected = values (w.spendableOutputs (height + 1)) at all
        omega
    · have enough := UInt64.le_iff_toNat_le.mp (UInt64.not_lt.mp short)
      rw [if_neg short]
      refine iff_of_true (buildSpend_ok proves (by omega) (by omega)) ⟨signs, nothing, by omega⟩

/-- A coin of a key and an amount. -/
def coin (key : Hash) (amount : UInt64) : OwnedOutput Unit where
  out := { oneTimeKey := key, txPubKey := [], commitment := [] }
  amount := amount
  mask := ()
  oneTime := none
  height := 0
  isCoinbase := false
  sourceTx := []

/-- A wallet of two coins. -/
def purse : Wallet Wire.Bytes Unit := { newWallet with outputs := [coin [1] 5, coin [2] 7] }

/-- Two coins of five and seven pay eleven and a fee of one. -/
theorem payment_exact_two :
    ∃ t w', purse.createTransaction (fun _ => .ok ()) 0 11 1 = (.ok t, w') :=
  (payment_exact (fun _ => rfl) (by decide) 11 1).mpr ⟨rfl, by decide, by decide⟩

/-! ## Transactions under way -/

/-- An output without its reservation. -/
def unreserve (o : OwnedOutput Scalar) : OwnedOutput Scalar := { o with reserved := false }

/-- What the inputs of a transaction are worth among the outputs of a wallet. -/
def inputSum (outputs : List (OwnedOutput Scalar)) (t : Draft) : Nat :=
  values (outputs.filter fun o => o.out.oneTimeKey ∈ t.inputs)

/-- Inputs pay for the amount, the change and the fee. -/
def Balanced (base : List (OwnedOutput Scalar)) (t : Draft) : Prop :=
  inputSum base t = t.amount.toNat + t.change.toNat + t.fee.toNat

/-- The outputs that the pending transactions spend. -/
def spending (pending : List Draft) : List Hash := pending.flatMap Draft.inputs

/-- The desk of a wallet whose outputs are `base` but for the reservations. -/
structure Apart (base : List (OwnedOutput Scalar)) (d : Desk Point Scalar) : Prop where
  same : d.wallet.outputs.map unreserve = base
  balanced : ∀ t ∈ d.pending, Balanced base t
  once : (spending d.pending).Nodup
  reserved : ∀ o ∈ d.wallet.outputs, o.reserved = true ↔ o.out.oneTimeKey ∈ spending d.pending

theorem refsOf_unreserve (outputs : List (OwnedOutput Scalar)) :
    refsOf (outputs.map unreserve) = refsOf outputs := by
  rw [refsOf, List.map_map]
  rfl

theorem inputSum_unreserve (outputs : List (OwnedOutput Scalar)) (t : Draft) :
    inputSum (outputs.map unreserve) t = inputSum outputs t := by
  unfold inputSum values
  rw [List.filter_map, List.map_map]
  rfl

theorem setReserved_unreserve (w : Wallet Point Scalar) (refs : List Hash) (flag : Bool) :
    (w.setReserved refs flag).outputs.map unreserve = w.outputs.map unreserve := by
  rw [setReserved, List.map_map]
  refine List.map_congr_left fun o _ => ?_
  dsimp only [Function.comp, unreserve]
  split_ifs <;> rfl

theorem filter_refsOf {selected outputs : List (OwnedOutput Scalar)}
    (sub : selected.Sublist outputs) (distinct : (refsOf outputs).Nodup) :
    (outputs.filter fun o => o.out.oneTimeKey ∈ refsOf selected) = selected := by
  induction sub with
  | slnil => rfl
  | cons o sub ih =>
    obtain ⟨fresh, distinct⟩ := List.nodup_cons.mp distinct
    have outside : o.out.oneTimeKey ∉ refsOf _ := fun inside => fresh ((sub.map _).subset inside)
    rw [List.filter_cons_of_neg (by simpa using outside), ih distinct]
  | cons_cons o sub ih =>
    obtain ⟨fresh, distinct⟩ := List.nodup_cons.mp distinct
    rw [List.filter_cons_of_pos (by simp [refsOf])]
    refine congrArg (o :: ·) (Eq.trans (List.filter_congr fun other inside => ?_) (ih distinct))
    have differs : other.out.oneTimeKey ≠ o.out.oneTimeKey := by
      intro same
      have there := List.mem_map_of_mem (f := fun o => o.out.oneTimeKey) inside
      rw [same] at there
      exact fresh there
    simp [refsOf, differs]

/-- A transaction put under way beside `rest`: its inputs are apart from those of the others, and
what it spends was free or was spent by what it replaces. -/
theorem Apart.put {base : List (OwnedOutput Scalar)} {d : Desk Point Scalar}
    (apart : Apart base d) (distinct : (refsOf base).Nodup)
    {selected : List (OwnedOutput Scalar)} {t : Draft} {w' : Wallet Point Scalar}
    (sub : selected.Sublist d.wallet.outputs) (built : Built d.wallet selected t w')
    {pending rest : List Draft} (order : pending.Perm (t :: rest))
    (kept : ∀ other ∈ rest, other ∈ d.pending) (once : (t.inputs ++ spending rest).Nodup)
    (held : ∀ o ∈ d.wallet.outputs,
      o.reserved = true ∨ o.out.oneTimeKey ∈ t.inputs ↔
        o.out.oneTimeKey ∈ t.inputs ++ spending rest) :
    Apart base ⟨w', pending⟩ := by
  have flat : (spending pending).Perm (t.inputs ++ spending rest) := order.flatMap_right _
  have own : (refsOf d.wallet.outputs).Nodup := by
    rw [← refsOf_unreserve, apart.same]
    exact distinct
  refine ⟨?_, fun other member => ?_, flat.nodup_iff.mpr once, fun o member => ?_⟩
  · rw [built.wallet, setReserved_unreserve, apart.same]
  · rcases List.mem_cons.mp (order.mem_iff.mp member) with rfl | old
    · rw [Balanced, ← apart.same, inputSum_unreserve, inputSum, built.inputs,
        filter_refsOf sub own, built.balance]
    · exact apart.balanced other (kept other old)
  · rw [flat.mem_iff]
    rw [built.wallet] at member
    obtain ⟨o, inside, rfl⟩ := List.mem_map.mp member
    have before := held o inside
    split_ifs with chosen
    · exact iff_of_true rfl (before.mp (.inr chosen))
    · rw [← before]
      exact (or_iff_left chosen).symm

/-- A new transaction from free outputs. -/
theorem Apart.file_new {base : List (OwnedOutput Scalar)} {d : Desk Point Scalar}
    (apart : Apart base d) (distinct : (refsOf base).Nodup) {height : Nat}
    {out : Except String Draft × Wallet Point Scalar}
    (builds : Builds d.wallet
      (fun selected => selected.Sublist (d.wallet.spendableOutputs height)) out) :
    Apart base (d.file out fun t => d.pending ++ [t]) := by
  rcases builds with ⟨error, rfl⟩ | ⟨selected, t, w', free, built, rfl⟩
  · exact apart
  have sub : selected.Sublist d.wallet.outputs := free.trans List.filter_sublist
  have own : (refsOf d.wallet.outputs).Nodup := by
    rw [← refsOf_unreserve, apart.same]
    exact distinct
  -- what is selected was free, so nothing under way spends it
  have unused : ∀ ref ∈ t.inputs, ref ∉ spending d.pending := by
    rw [built.inputs]
    intro ref chosen used
    obtain ⟨o, inside, rfl⟩ := List.mem_map.mp chosen
    have holds := (List.mem_filter.mp (free.subset inside)).2
    have taken := (apart.reserved o (sub.subset inside)).mpr used
    rw [spendable, taken, Bool.or_true] at holds
    exact Bool.false_ne_true holds
  refine apart.put distinct sub built (List.perm_append_singleton t d.pending)
    (fun _ member => member) ?_ fun o inside => ?_
  · refine List.nodup_append'.mpr ⟨?_, apart.once, unused⟩
    rw [built.inputs]
    exact own.sublist (sub.map _)
  · rw [List.mem_append, apart.reserved o inside, or_comm]

theorem Apart.first {base : List (OwnedOutput Scalar)} {d : Desk Point Scalar}
    (apart : Apart base d) {place : Nat} {t : Draft} (found : d.pending[place]? = some t) :
    (t.inputs ++ spending (d.pending.eraseIdx place)).Nodup ∧
      (spending d.pending).Perm (t.inputs ++ spending (d.pending.eraseIdx place)) := by
  obtain ⟨here, rfl⟩ := List.getElem?_eq_some_iff.mp found
  have order : (spending d.pending).Perm (d.pending[place].inputs ++
      spending (d.pending.eraseIdx place)) :=
    (List.getElem_cons_eraseIdx_perm here).symm.flatMap_right _
  exact ⟨order.nodup_iff.mp apart.once, order⟩

/-- Every order keeps the pending transactions apart. -/
theorem Apart.step {base : List (OwnedOutput Scalar)} {d : Desk Point Scalar}
    (apart : Apart base d) (distinct : (refsOf base).Nodup) (order : Order) :
    Apart base (d.step prove order) := by
  cases order with
  | create height amount fee =>
    exact apart.file_new distinct (createTransaction_builds height amount fee)
  | createFrom height place amount fee =>
    exact apart.file_new distinct (createTransactionFrom_builds height place amount fee)
  | sweep height fee => exact apart.file_new distinct (createSweepTransaction_builds height fee)
  | bump place amount newFee =>
    cases found : d.pending[place]? with
    | none =>
      rw [Desk.step, found]
      exact apart
    | some prev =>
      rw [Desk.step, found]
      obtain ⟨once, flat⟩ := apart.first found
      have here := (List.getElem?_eq_some_iff.mp found).1
      have single : prev.inputs.Nodup := (List.nodup_append'.mp once).1
      dsimp only
      have builds : Builds d.wallet
          (fun selected => selected.Sublist d.wallet.outputs ∧
            (refsOf selected).Perm prev.inputs) (d.wallet.bumpFee prove prev amount newFee) :=
        bumpFee_builds single amount newFee
      rcases builds with ⟨error, failed⟩ | ⟨selected, t, w', ⟨sub, again⟩, built, done⟩
      · rw [failed]
        exact apart
      · rw [done]
        have swap : (t.inputs ++ spending (d.pending.eraseIdx place)).Perm
            (prev.inputs ++ spending (d.pending.eraseIdx place)) :=
          (built.inputs ▸ again).append_right _
        refine apart.put distinct sub built (List.set_perm_cons_eraseIdx here t)
          (fun _ member => List.mem_of_mem_eraseIdx member) (swap.nodup_iff.mpr once)
          fun o inside => ?_
        rw [swap.mem_iff, ← flat.mem_iff, apart.reserved o inside, or_iff_left_iff_imp]
        intro chosen
        exact flat.mem_iff.mpr (swap.mem_iff.mp (List.mem_append_left _ chosen))
  | release place =>
    cases found : d.pending[place]? with
    | none =>
      rw [Desk.step, found]
      exact apart
    | some t =>
      rw [Desk.step, found]
      obtain ⟨once, flat⟩ := apart.first found
      obtain ⟨-, rest, disjoint⟩ := List.nodup_append'.mp once
      refine ⟨?_, fun other member => apart.balanced other (List.mem_of_mem_eraseIdx member), rest,
        fun o member => ?_⟩
      · rw [← apart.same]
        exact setReserved_unreserve d.wallet t.inputs false
      · obtain ⟨o, inside, rfl⟩ := List.mem_map.mp member
        have before := apart.reserved o inside
        rw [flat.mem_iff, List.mem_append] at before
        split_ifs with chosen
        · exact iff_of_false not_false fun other => disjoint chosen other
        · exact before.trans (or_iff_right chosen)

/-- From a wallet whose outputs have different keys and none reserved, over any run of builds,
bumps and releases, at whatever heights and with whatever outcomes of the proofs: every
transaction under way spends exactly its amount, its change and its fee, without overflow; no
output is spent by two of them; an output is reserved exactly while one of them spends it; the
outputs are otherwise as they were; and what a payment, a sweep or a spend of a chosen output
takes next is unspent, unreserved, mature and unlocked. -/
theorem spends_apart {prove : Draft → Except String Unit} {w : Wallet Point Scalar}
    (distinct : (w.outputs.map fun o => o.out.oneTimeKey).Nodup)
    (free : ∀ o ∈ w.outputs, o.reserved = false) (orders : List Order) :
    let d := Desk.run prove ⟨w, []⟩ orders
    (∀ t ∈ d.pending, ((w.outputs.filter fun o => o.out.oneTimeKey ∈ t.inputs).map
      fun o => o.amount.toNat).sum = t.amount.toNat + t.change.toNat + t.fee.toNat) ∧
    (d.pending.flatMap Draft.inputs).Nodup ∧
    (∀ o ∈ d.wallet.outputs,
      o.reserved = true ↔ ∃ t ∈ d.pending, o.out.oneTimeKey ∈ t.inputs) ∧
    d.wallet.outputs.map unreserve = w.outputs ∧
    ∀ height place amount fee t w',
      d.wallet.createTransaction prove height amount fee = (.ok t, w') ∨
        d.wallet.createSweepTransaction prove height fee = (.ok t, w') ∨
        d.wallet.createTransactionFrom prove height place amount fee = (.ok t, w') →
      t.inputs.Sublist ((d.wallet.spendableOutputs (height + 1)).map fun o =>
        o.out.oneTimeKey) := by
  have unreserved : w.outputs.map unreserve = w.outputs := by
    refine (List.map_congr_left fun o inside => ?_).trans (List.map_id _)
    rw [unreserve, ← free o inside]
    rfl
  have apart : Apart w.outputs (Desk.run prove ⟨w, []⟩ orders) := by
    induction orders using List.reverseRecOn with
    | nil =>
      exact ⟨unreserved, fun _ member => absurd member List.not_mem_nil, List.nodup_nil,
        fun o inside => iff_of_false (by rw [free o inside]; exact Bool.false_ne_true)
          List.not_mem_nil⟩
    | append_singleton orders last ih =>
      rw [Desk.run, List.foldl_append]
      exact ih.step distinct last
  refine ⟨apart.balanced, apart.once,
    fun o inside => (apart.reserved o inside).trans List.mem_flatMap, apart.same,
    fun height place amount fee t w' built => ?_⟩
  rcases built with paid | swept | chosen
  · exact Builds.free (paid ▸ createTransaction_builds height amount fee)
  · exact Builds.free (swept ▸ createSweepTransaction_builds height fee)
  · exact Builds.free (chosen ▸ createTransactionFrom_builds height place amount fee)

/-- Two payments from two outputs, of which the first is released and paid again. -/
theorem spends_apart_two :
    ((Desk.run (fun _ => .ok ()) ⟨purse, []⟩ [.create 0 4 1, .create 0 6 1, .release 0,
      .create 0 3 1]).pending.flatMap Draft.inputs).Nodup :=
  (spends_apart (by decide) (by decide) _).2.1

end Build

end Obscura.Wallet
