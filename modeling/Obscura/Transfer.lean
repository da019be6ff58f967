import Obscura.SwapReorg

/-! # Transfers

On the network of `Forge`, a coin of a miner is paid to the key that no coinbase pays,
possibly under a time lock.
-/

namespace Obscura.Forge

open Wire Tx Testnet Checked

/-- A commitment that shows its amount. -/
def shown (amount : UInt64) : Bytes := wU64 amount ++ bigEndian 24 0

@[simp] theorem length_shown (amount : UInt64) : (shown amount).length = 32 := by
  simp [shown]

/-- What the spender of a coin keeps, under a lock. -/
def change (amount lock : UInt64) : Output where
  oneTimeKey := payoutKey 0
  txPubKey := zeroHash
  commitment := shown (amount - toll)
  lockUntil := lock

/-- The coin minted at a height moves to a new key. -/
def transfer (born : Nat) (amount lock : UInt64) : Transaction :=
  let unsigned : Transaction :=
    { inputs := [{
        outputRef := payoutKey born
        pseudoCommitment := shown amount
        keyImage := payoutKey born }]
      outputs := [change amount lock]
      fee := toll }
  let ctx := unsigned.coreHash net
  { unsigned with
    inputs := [{
      outputRef := payoutKey born
      ownershipProof := payoutKey born ++ ctx
      pseudoCommitment := shown amount
      equalityProof := shown amount ++ ctx
      keyImage := payoutKey born }] }

/-- A transfer is small. -/
theorem transfer_size (born : Nat) (amount lock : UInt64) :
    (transfer born amount lock).serialize.length ≤ 10_000 := by
  have ctx : ∀ t : Transaction, (t.coreHash net).length = 32 := fun t => length_digest _
  have inputs : (putList Input.serialize (transfer born amount lock).inputs).length ≤ 1000 := by
    simp only [transfer, putList, Input.serialize, putU64, List.length_append, length_bigEndian,
      length_wB, payoutKey_length, ctx, length_shown, List.flatMap_cons, List.flatMap_nil,
      List.append_nil, List.length_cons, List.length_nil]
    omega
  have outputs : (putList Output.serialize (transfer born amount lock).outputs).length ≤ 1000 := by
    simp only [transfer, change, putList, Output.serialize, putU64, List.length_append,
      length_bigEndian, length_wB, length_wU64, List.flatMap_cons, List.flatMap_nil,
      payoutKey_length, List.append_nil, List.length_cons, List.length_nil, zeroHash,
      List.length_replicate, length_shown]
    omega
  unfold Transaction.serialize
  simp only [List.length_append, length_bigEndian, length_wB, length_wU64]
  simp only [transfer, length_putList_nil, wBool, List.length_cons, List.length_nil]
    at inputs outputs ⊢
  omega

theorem primesOf_transfer (born : Nat) (amount lock : UInt64) :
    primesOf net [transfer born amount lock] = [payoutKey 0] := by
  simp [primesOf, outputsOf, transfer, change, net, primitives]

/-- How a network checks rings and claims. -/
structure Checks where
  ring : List Bytes → List Bytes → Bytes → Bytes → Bytes → Bytes → Bool
  binding : Bytes → Bytes → Bytes → Bool
  aggregate : Bytes → Bytes → Bytes → Bytes → Option Bytes

/-- A test network with other checks. -/
def variant (hash : Bytes → Hash) (checks : Checks) : Primitives :=
  { primitives hash with
    verifyAnonSpendBytes := checks.ring
    claimBindingOK := checks.binding
    aggregateKeyVerified := checks.aggregate }

/-- The coin minted at a height moves to an output. -/
def moved (V : Primitives) (born : Nat) (amount fee : UInt64) (o : Output) : Transaction :=
  let unsigned : Transaction :=
    { inputs := [{
        outputRef := payoutKey born
        pseudoCommitment := shown amount
        keyImage := payoutKey born }]
      outputs := [o]
      fee := fee }
  let ctx := unsigned.coreHash V
  { unsigned with
    inputs := [{
      outputRef := payoutKey born
      ownershipProof := payoutKey born ++ ctx
      pseudoCommitment := shown amount
      equalityProof := shown amount ++ ctx
      keyImage := payoutKey born }] }

section Valid

variable {L : Ledger} {born index height : Nat} {amount : UInt64} {prime : List Bytes}

/-- A mature coin can be moved if the fee pays for the size and the rest is shown. -/
theorem moved_valid {V : Primitives} {hash : Bytes → Hash} {checks : Checks}
    (same : V = variant hash checks) {fee : UInt64} {o : Output}
    (coin : L.utxoEntry (payoutKey born) =
      some ⟨payoutKey born, shown amount, born, true, 0, index⟩)
    (untagged : L.tags.has (hexstr (payoutKey born)) = false)
    (mature : born + Config.coinbaseMaturity ≤ height)
    (small : (moved V born amount fee o).serialize.length ≤ 2 ^ 32)
    (paid : (moved V born amount fee o).serialize.length * 1000 ≤ fee.toNat)
    (enough : fee ≤ amount) (rest : o.commitment = shown (amount - fee))
    (widths : o.oneTimeKey.length = 32 ∧ o.txPubKey.length = 32)
    (new : L.coins.coinByKey o.oneTimeKey = none ∧ L.outPrimes.has (hexstr o.oneTimeKey) = false)
    (unseen : hexstr o.oneTimeKey ∉ prime ∧ ascii "key:" ++ hexstr o.oneTimeKey ∉ prime) :
    ∃ seen, validateTxLocked V L false (moved V born amount fee o) height ⟨[], prime⟩ =
      .ok ([o.oneTimeKey], seen) := by
  subst same
  let t := moved (variant hash checks) born amount fee o
  have shape : checkShape t = .ok () := by
    obtain ⟨fits, covered⟩ := fee_covers small paid
    have toll : t.fee = fee := rfl
    unfold checkShape
    simp only [bind_ok, reject_ok, exists_const, toll, t, fits, covered]
    refine ⟨?_, ?_, ?_, ?_, ?_, ?_, ?_⟩ <;> simp [moved, Config.maxInputs, Config.maxOutputs]
  have inputs : t.inputs.foldlM (checkInput (variant hash checks) L false height
      (t.coreHash (variant hash checks))) [] =
      .ok [hexstr (payoutKey born), hexstr (payoutKey born)] := by
    refine bind_ok.mpr ⟨_, checkInput_ok.mpr ⟨⟨payoutKey_length born, length_shown amount,
      payoutKey_length born⟩, List.not_mem_nil, _, coin, ?_, Nat.zero_le _, fun _ => ⟨?_, ?_, ?_⟩,
      payoutKey born, rfl, List.not_mem_nil, untagged, rfl⟩, rfl⟩
    · rintro ⟨-, immature⟩
      dsimp only at immature
      omega
    · exact beq_self_eq_true _
    · change ((shown amount).take 8 == (shown amount).take 8 && shown amount ++
        t.coreHash (variant hash checks) == _) = true
      rw [beq_self_eq_true]
      exact beq_self_eq_true _
    · exact beq_self_eq_true _
  have outputs := @checkOutputs_fresh hash L prime o
    ⟨widths.1, widths.2, by rw [rest, length_shown]⟩ new unseen
  have conserved : (variant hash checks).verifyConservationGen (pseudoIns t)
      (commitmentList t.outputs) 0 fee t.conservation (t.coreHash (variant hash checks)) =
        true := by
    change ([amountOf (shown amount)].sum + ((0 : UInt64).toNat : Int) ==
      [amountOf o.commitment].sum + (fee.toNat : Int)) = true
    have left := UInt64.toNat_sub_of_le _ _ enough
    rw [UInt64.le_iff_toNat_le] at enough
    simp only [rest, shown, amountOf_shown, left, beq_iff_eq, List.sum_singleton,
      UInt64.toNat_zero]
    omega
  have classical : hasPQ t = false := rfl
  have normal : t.isCoinbase = false := rfl
  refine ⟨⟨[hexstr (payoutKey born), hexstr (payoutKey born)],
    hexstr o.oneTimeKey :: (ascii "key:" ++ hexstr o.oneTimeKey) :: prime⟩, ?_⟩
  change validateTxLocked (variant hash checks) L false t height ⟨[], prime⟩ = _
  unfold validateTxLocked validateLegs
  simp only [bind_ok, reject_ok, exists_const, pure_ok, Prod.exists, normal, classical,
    Bool.false_eq_true, not_false_eq_true, ↓reduceIte, true_and]
  refine ⟨(), shape, _, inputs, _, rfl, _, _, rfl, _, _, rfl, _, _, rfl, _, _, rfl, _, _, outputs,
    _, _, rfl, 0, rfl, _, rfl, fee, addU64_ok.mpr rfl, _, _, rfl, 0, rfl, ?_, rfl⟩
  rw [conserved]
  decide

/-- A mature coin can be moved to the change. -/
theorem transfer_valid
    (coin : L.utxoEntry (payoutKey born) =
      some ⟨payoutKey born, shown amount, born, true, 0, index⟩)
    (untagged : L.tags.has (hexstr (payoutKey born)) = false)
    (mature : born + Config.coinbaseMaturity ≤ height) (enough : toll ≤ amount)
    (new : L.coins.coinByKey (payoutKey 0) = none ∧
      L.outPrimes.has (hexstr (payoutKey 0)) = false)
    (unseen : hexstr (payoutKey 0) ∉ prime ∧ ascii "key:" ++ hexstr (payoutKey 0) ∉ prime)
    (lock : UInt64) :
    ∃ seen, validateTxLocked net L false (transfer born amount lock) height ⟨[], prime⟩ =
      .ok ([payoutKey 0], seen) := by
  have size := transfer_size born amount lock
  have same : transfer born amount lock = moved net born amount toll (change amount lock) := rfl
  have fee : toll.toNat = 10_000_000 := by decide
  rw [same] at size
  exact @moved_valid L born index height amount prime net digest ⟨ringProof, _, _⟩ rfl toll
    (change amount lock) coin untagged mature (by omega) (by omega) enough rfl
    ⟨payoutKey_length 0, rfl⟩ new unseen

end Valid

/-- A block can carry the transfer of a mature coin. -/
theorem transfer_carried {chain : List Block} (state : Net chain) (small : chain.length < 2000)
    (unpaid : Unpaid chain) {born index : Nat} {amount : UInt64}
    (coin : (replay net chain).utxoEntry (payoutKey born) =
      some ⟨payoutKey born, shown amount, born, true, 0, index⟩)
    (untagged : (replay net chain).tags.has (hexstr (payoutKey born)) = false)
    (mature : born + Config.coinbaseMaturity ≤ chain.length + 1) (enough : toll ≤ amount)
    (lock : UInt64) : Carried chain [transfer born amount lock] toll := by
  constructor
  case few => exact Nat.le_refl 1
  case normal =>
    intro t member
    obtain rfl := List.mem_singleton.mp member
    exact ⟨rfl, rfl, transfer_size born amount lock⟩
  case noLeaves => rfl
  case noPQ => rfl
  case outputs =>
    intro t member o listed
    obtain rfl := List.mem_singleton.mp member
    obtain rfl := List.mem_singleton.mp listed
    rfl
  case small => decide
  case tally =>
    intro b height
    have stores := (state.chained.mono fun L b => Verified.admitted).stores
    obtain ⟨seen, valid⟩ := transfer_valid coin untagged mature enough
      (key_new stores unpaid.1 unpaid.2) (payoutKey_unseen (Nat.succ_pos _) small) lock
    rw [← height] at valid
    rw [primesOf_transfer]
    exact ⟨seen, tally_one rfl rfl valid⟩

end Obscura.Forge
