import Obscura.Swapd.LockExact

/-! # Sweeping the joint account

Once the maker knows the joint secret it receives the lock into the joint account and sends the
whole balance on, in two blocks that are published one after the other. The drivers repeat a
sweep that failed. Every call computes the receive of the lock anew, so that a call after the
receive took effect is refused by the ledger.
-/

namespace Obscura.Swapd

open Wire Lossy

variable {Scalar : Type} (N : Nano Scalar) (n : NanoRPC Scalar) (fates : Nat → Fate)

/-! ## The client -/

/-- `block_info`, the amount of a block; amounts never change. -/
def blockService (amounts : Bytes → Option Nat) : Service Ledger Bytes Nat Move where
  handle state hash :=
    match amounts hash with
    | none => .error "Block not found"
    | some amount => .ok (amount, state, [])

/-- `block_info`: the amount of a block that the node knows. -/
def blockInfo (amounts : Bytes → Option Nat) (hash : Bytes) : RPC Nat :=
  Lossy.call (blockService amounts) fates ("swapd: nano rpc error: " ++ ·)
    "swapd: nano rpc transport error" (3 * (endpoints n n.url).length) hash

/-- `Sweep`: receive the lock into the joint account, then send the balance to `dest`. -/
def sweep (amounts : Bytes → Option Nat) (lockID : Bytes) (accountSecret : Scalar) (dest : Bytes) :
    RPC Unit := do
  let jointPub := N.pubOf accountSecret
  let jointAddr ← .ofExcept (encodeNanoAddress N.blake2b40 jointPub)
  let destPub ← (Client.ofExcept (decodeNanoAddress N.blake2b40 dest)).within
    "swapd: bad nano dest: "
  let info ← (call N n fates n.url (.accountInfo jointAddr)).outcome
  let (frontier, representative, curBal) := accountState info
  let prev := if frontier = [] then zeroHash else frontier
  let rep := if representative = [] then defaultNanoRep else representative
  let recvAmt ← blockInfo n fates amounts lockID
  let recvHash ← (publishState N n fates jointPub prev rep (curBal + recvAmt) lockID accountSecret
    (prev = zeroHash) .receive).within "swapd: nano receive: "
  let _ ← (publishState N n fates jointPub recvHash rep 0 destPub accountSecret false
    .send).within "swapd: nano send: "
  pure ()

/-! ## What the ledger refuses -/

/-- The joint account has received the lock. -/
structure Swept (joint lockID : Bytes) (amount : Nat) (ledger : Ledger) : Prop where
  opened : ∃ acc, ledger.accounts[joint]? = some acc
  received : ⟨lockID, joint, amount⟩ ∉ ledger.pending
  recorded : lockID ∈ ledger.blocks

section Refused

variable {N} {n} {fates} {joint lockID : Bytes} {amount : Nat}

/-- A question for an account changes nothing. -/
theorem accountInfo_same {address : Bytes} {w : World Ledger Move} :
    Runs (call N n fates n.url (.accountInfo address)) w fun result w' =>
      w'.state = w.state ∧ ∀ answer, result = .ok answer → ∃ account acc,
        decodeNanoAddress N.blake2b40 address = .ok account ∧
        w.state.accounts[account]? = some acc ∧
        answer = .info acc.frontier acc.representative acc.balance := by
  apply Runs.mono (call_reads (fun answer => ∃ account acc,
    decodeNanoAddress N.blake2b40 address = .ok account ∧
    w.state.accounts[account]? = some acc ∧
    answer = .info acc.frontier acc.representative acc.balance) fun answer next moves outcome => ?_)
  · rintro result w' ⟨unchanged, -, known⟩
    exact ⟨unchanged, known⟩
  · exact accountInfo_handled outcome

/-- A question for a block changes nothing. -/
theorem blockInfo_runs {amounts : Bytes → Option Nat} {hash : Bytes} {w : World Ledger Move} :
    Runs (blockInfo n fates amounts hash) w fun result w' =>
      w'.state = w.state ∧ ∀ amount, result = .ok amount → amounts hash = some amount := by
  apply Runs.mono (Runs.call (· = w.state) (fun amount _ => amounts hash = some amount) [] ?_ _ rfl)
  · rintro result w' ⟨unchanged, known, -⟩
    exact ⟨unchanged, known⟩
  · rintro state answer next performed rfl outcome
    simp only [blockService] at outcome
    cases found : amounts hash with
    | none => simp [found] at outcome
    | some amount =>
      simp only [found, Except.ok.injEq, Prod.mk.injEq] at outcome
      obtain ⟨rfl, rfl, rfl⟩ := outcome
      exact ⟨rfl, rfl, rfl⟩

theorem process_keeps (invariant after : Ledger → Prop) {block : StateBlock} {subtype : Subtype}
    {w : World Ledger Move}
    (processed : ∀ (state next : Ledger) (moves : List Move), invariant state →
      state.process N block = .ok (next, moves) → invariant next ∧ after next)
    (started : invariant w.state) :
    Runs (call N n fates n.url (.process block subtype)) w fun result w' =>
      invariant w'.state ∧ ∀ answer, result = .ok answer → after w'.state := by
  refine Runs.call_keeps invariant (fun _ => after) (fun state answer next moves held outcome => ?_)
    _ started
  simp only [service, Ledger.handle, bind, Except.bind] at outcome
  split at outcome
  · cases outcome
  · next pair ran =>
      simp only [pure, Except.pure, Except.ok.injEq, Prod.mk.injEq] at outcome
      obtain ⟨-, rfl, -⟩ := outcome
      exact processed state pair.1 pair.2 held ran

/-- What the processing of a block keeps, publishing it keeps, however often it is repeated. -/
theorem publishState_keeps (invariant after : Ledger → Prop) {pub prev repAddr link : Bytes}
    {balance : Nat} {secret : Scalar} {opened : Bool} {subtype : Subtype} {w : World Ledger Move}
    (processed : ∀ (block : StateBlock) (state next : Ledger) (moves : List Move),
      block.account = pub → block.previous = prev → block.balance = balance →
      block.link = link → invariant state → state.process N block = .ok (next, moves) →
        invariant next ∧ after next)
    (started : invariant w.state) :
    Runs (publishState N n fates pub prev repAddr balance link secret opened subtype) w
      fun result w' => invariant w'.state ∧ ∀ hash, result = .ok hash → after w'.state := by
  have stopped (text : String) (w' : World Ledger Move) (unchanged : w'.state = w.state) :
      invariant w'.state ∧
        ∀ hash, Except.error (α := Bytes) text = .ok hash → after w'.state :=
    ⟨unchanged ▸ started, by rintro hash ⟨⟩⟩
  rw [publishState]
  apply Runs.bind
  apply Runs.ofExcept
  cases decodeNanoAddress N.blake2b40 repAddr with
  | error text => exact stopped text w rfl
  | ok representative =>
    simp only
    split
    · exact Runs.fail (stopped _ w rfl)
    split
    · exact Runs.fail (stopped _ w rfl)
    split
    · exact Runs.fail (stopped _ w rfl)
    apply Runs.bind
    apply Runs.mono generateWork_runs
    rintro result worked ⟨unchanged, -⟩
    cases result with
    | error text => exact stopped text worked unchanged
    | ok work =>
      apply Runs.bind
      apply Runs.mono (process_keeps invariant after (fun state next moves held ran =>
        processed _ state next moves rfl rfl rfl rfl held ran)
        (unchanged.symm ▸ started : invariant worked.state))
      rintro result w' ⟨kept, done⟩
      cases result with
      | error text => exact ⟨kept, by rintro hash ⟨⟩⟩
      | ok answer =>
        have finished := done answer rfl
        simp only
        split
        · exact Runs.fail ⟨kept, by rintro hash ⟨⟩⟩
        · exact Runs.pure ⟨kept, fun _ _ => finished⟩
        · exact Runs.fail ⟨kept, by rintro hash ⟨⟩⟩

theorem Swept.refuses {ledger : Ledger} (swept : Swept joint lockID amount ledger)
    (positive : 0 < amount) {block : StateBlock} (own : block.account = joint)
    (link : block.link = lockID)
    (again : ∀ acc, ledger.accounts[joint]? = some acc → block.previous = zeroHash ∨
      block.balance = acc.balance + amount) (after : Ledger × List Move) :
    ledger.process N block ≠ .ok after := by
  intro outcome
  obtain ⟨acc, found⟩ := swept.opened
  have balance := again acc found
  simp only [Ledger.process, own, found] at outcome
  generalize (if block.previous = zeroHash then joint else block.previous) = root at outcome
  split_ifs at outcome with unsigned workless old fork lower higher
  · have grown := balance.resolve_left (not_or.mp fork).1
    omega
  · have grown := balance.resolve_left (not_or.mp fork).1
    rw [Ledger.collect, own, link, grown, Nat.add_sub_cancel_left, if_neg swept.received] at outcome
    cases outcome

/-- Later blocks of the account do not bring the lock back. -/
theorem Swept.process {ledger next : Ledger} (swept : Swept joint lockID amount ledger)
    {block : StateBlock} (own : block.account = joint) {moves : List Move}
    (outcome : ledger.process N block = .ok (next, moves)) : Swept joint lockID amount next := by
  obtain ⟨acc, found⟩ := swept.opened
  simp only [Ledger.process, own, found] at outcome
  generalize (if block.previous = zeroHash then joint else block.previous) = root at outcome
  split_ifs at outcome with unsigned workless old fork lower higher
  · obtain ⟨rfl, rfl⟩ := Prod.mk.inj (Except.ok.inj outcome)
    refine ⟨?_, fun among => ?_, List.mem_cons_of_mem _ swept.recorded⟩
    · exact ⟨_, own ▸ (pay_spec ledger (block.hash N) block acc).2⟩
    · rcases List.mem_append.mp among with early | late
      · exact swept.received early
      · have same : lockID = block.hash N := congrArg Pending.hash (List.mem_singleton.mp late)
        exact old (same ▸ swept.recorded)
  · obtain ⟨-, -, opened⟩ := collect_ok outcome
    rw [own] at opened
    rw [Ledger.collect] at outcome
    split_ifs at outcome
    obtain ⟨rfl, rfl⟩ := Prod.mk.inj (Except.ok.inj outcome)
    exact ⟨⟨_, opened⟩, fun among => swept.received (List.mem_of_mem_erase among),
      List.mem_cons_of_mem _ swept.recorded⟩

/-- The lock is still to be received, into an account that is not opened. -/
structure Locked (joint lockID : Bytes) (amount : Nat) (ledger : Ledger) : Prop where
  unopened : ledger.accounts[joint]? = none
  receivable : ⟨lockID, joint, amount⟩ ∈ ledger.pending
  once : ledger.pending.Nodup
  recorded : lockID ∈ ledger.blocks

theorem Locked.accountState_eq {ledger : Ledger} (locked : Locked joint lockID amount ledger)
    (length : joint.length = 32) {info : Except String Answer}
    (informed : ∀ answer, info = .ok answer → ∃ account acc,
      decodeNanoAddress N.blake2b40 (nanoAddress N.blake2b40 joint) = .ok account ∧
      ledger.accounts[account]? = some acc ∧
      answer = .info acc.frontier acc.representative acc.balance) :
    accountState info = ([], [], 0) := by
  cases info with
  | error text => rfl
  | ok answer =>
    obtain ⟨account, acc, decoded, found, rfl⟩ := informed answer rfl
    rw [decode_nanoAddress N.blake2b40 length (N.blake2b40_length _)] at decoded
    cases decoded
    rw [locked.unopened] at found
    exact nomatch found

theorem Locked.process {ledger next : Ledger} (locked : Locked joint lockID amount ledger)
    {block : StateBlock} (own : block.account = joint) (link : block.link = lockID)
    (balance : block.balance = amount) {moves : List Move}
    (outcome : ledger.process N block = .ok (next, moves)) : Swept joint lockID amount next := by
  simp only [Ledger.process, own, locked.unopened] at outcome
  generalize (if block.previous = zeroHash then joint else block.previous) = root at outcome
  split_ifs at outcome with unsigned workless old gap
  obtain ⟨-, -, opened⟩ := collect_ok outcome
  rw [own] at opened
  rw [Ledger.collect, own, link, balance] at outcome
  split_ifs at outcome
  obtain ⟨rfl, rfl⟩ := Prod.mk.inj (Except.ok.inj outcome)
  exact ⟨⟨_, opened⟩, locked.once.not_mem_erase, List.mem_cons_of_mem _ locked.recorded⟩

end Refused

/-! ## One call -/

section Calls

variable {N} {n} {fates} {secret : Scalar} {lockID dest : Bytes} {amount : Nat}
  {amounts : Bytes → Option Nat} {w : World Ledger Move}

/-- A call after the receive took effect is refused and changes nothing. -/
theorem Swept.sweep_runs (swept : Swept (N.pubOf secret) lockID amount w.state)
    (known : amounts lockID = some amount) (positive : 0 < amount) :
    Runs (sweep N n fates amounts lockID secret dest) w fun result w' =>
      w'.state = w.state ∧ ∃ text, result = .error text := by
  rw [sweep]
  apply Runs.bind
  apply Runs.ofExcept
  rw [encodeNanoAddress]
  split_ifs with length
  · exact ⟨rfl, _, rfl⟩
  dsimp only
  apply Runs.bind
  apply Runs.within
  apply Runs.ofExcept
  cases decodeNanoAddress N.blake2b40 dest with
  | error text => exact ⟨rfl, _, rfl⟩
  | ok destPub =>
    dsimp only [Except.mapError]
    apply Runs.bind
    apply Runs.outcome
    apply Runs.mono accountInfo_same
    rintro info read ⟨readState, informed⟩
    -- An account that could not be read gives a block that opens it again.
    have follows : ∀ acc, read.state.accounts[N.pubOf secret]? = some acc →
        (if (accountState info).1 = [] then zeroHash else (accountState info).1) = zeroHash ∨
          (accountState info).2.2 + amount = acc.balance + amount := by
      intro acc found
      cases info with
      | error text => exact Or.inl rfl
      | ok answer =>
        obtain ⟨account, acc', decoded, found', rfl⟩ := informed answer rfl
        rw [decode_nanoAddress N.blake2b40 (not_not.mp length) (N.blake2b40_length _)]
          at decoded
        cases decoded
        rw [readState, found'] at found
        cases found
        exact Or.inr rfl
    dsimp only
    revert follows
    generalize accountState info = state
    obtain ⟨frontier, representative, balance⟩ := state
    intro follows
    dsimp only at follows ⊢
    apply Runs.bind
    apply Runs.mono blockInfo_runs
    rintro received told ⟨toldState, tells⟩
    cases received with
    | error text => exact ⟨toldState.trans readState, text, rfl⟩
    | ok recvAmt =>
      obtain rfl := Option.some.inj (known.symm.trans (tells recvAmt rfl))
      have unchanged := toldState.trans readState
      dsimp only
      apply Runs.bind
      apply Runs.within
      apply Runs.mono (publishState_keeps (· = w.state) (fun _ => False) ?_ unchanged)
      · rintro result w' ⟨same, never⟩
        cases result with
        | error text => exact ⟨same, _, rfl⟩
        | ok hash => exact (never hash rfl).elim
      · rintro block ledger next moves own previous grown link rfl outcome
        refine absurd outcome (swept.refuses positive own link (fun acc found => ?_) _)
        rw [previous, grown]
        exact follows acc (readState ▸ found)

/-- A call before the receive took effect leaves the ledger alone, or the receive takes effect. -/
theorem Locked.sweep_runs (locked : Locked (N.pubOf secret) lockID amount w.state)
    (known : amounts lockID = some amount) :
    Runs (sweep N n fates amounts lockID secret dest) w fun _ w' =>
      w'.state = w.state ∨ Swept (N.pubOf secret) lockID amount w'.state := by
  rw [sweep]
  apply Runs.bind
  apply Runs.ofExcept
  rw [encodeNanoAddress]
  split_ifs with length
  · exact Or.inl rfl
  dsimp only
  apply Runs.bind
  apply Runs.within
  apply Runs.ofExcept
  cases decodeNanoAddress N.blake2b40 dest with
  | error text => exact Or.inl rfl
  | ok destPub =>
    dsimp only [Except.mapError]
    apply Runs.bind
    apply Runs.outcome
    apply Runs.mono accountInfo_same
    rintro info read ⟨readState, informed⟩
    dsimp only
    rw [locked.accountState_eq (not_not.mp length) informed]
    dsimp only
    apply Runs.bind
    apply Runs.mono blockInfo_runs
    rintro received told ⟨toldState, tells⟩
    have unchanged := toldState.trans readState
    cases received with
    | error text => exact Or.inl unchanged
    | ok recvAmt =>
      obtain rfl := Option.some.inj (known.symm.trans (tells recvAmt rfl))
      dsimp only
      apply Runs.bind
      apply Runs.within
      apply Runs.mono (publishState_keeps
        (fun ledger => ledger = w.state ∨ Swept (N.pubOf secret) lockID amount ledger)
        (Swept (N.pubOf secret) lockID amount) ?_ (Or.inl unchanged))
      · rintro result w' ⟨kept, opened⟩
        cases result with
        | error text => exact kept
        | ok hash =>
          dsimp only [Except.mapError]
          apply Runs.bind
          apply Runs.within
          apply Runs.mono (publishState_keeps (Swept (N.pubOf secret) lockID amount)
            (fun _ => True) ?_ (opened hash rfl))
          · rintro result w'' ⟨swept, -⟩
            cases result with
            | error text => exact Or.inr swept
            | ok hash => exact Runs.pure (Or.inr swept)
          · intro block ledger next moves own _ _ _ swept outcome
            exact ⟨swept.process own outcome, trivial⟩
      · rintro block ledger next moves own - balance link (rfl | swept) outcome
        · have opened := locked.process own link (balance.trans (Nat.zero_add _)) outcome
          exact ⟨Or.inr opened, opened⟩
        · have opened := swept.process own outcome
          exact ⟨Or.inr opened, opened⟩

end Calls

/-! ## Interrupted calls -/

/-- The ledger after calls that were cut off: each at its own point, by its own losses. -/
def afterCalls (amounts : Bytes → Option Nat) (lockID : Bytes) (secret : Scalar) (dest : Bytes)
    (ledger : Ledger) (cuts : List (Nat → Fate)) : Ledger :=
  cuts.foldl (fun ledger fates =>
    ((sweep N n fates amounts lockID secret dest).run { state := ledger }).2.state) ledger

section Run

variable {N} {n} {secret : Scalar} {lockID dest : Bytes} {amount : Nat}
  {amounts : Bytes → Option Nat} {ledger : Ledger}

theorem afterCalls_spec (locked : Locked (N.pubOf secret) lockID amount ledger)
    (known : amounts lockID = some amount) (positive : 0 < amount) (cuts : List (Nat → Fate)) :
    afterCalls N n amounts lockID secret dest ledger cuts = ledger ∨
      Swept (N.pubOf secret) lockID amount
        (afterCalls N n amounts lockID secret dest ledger cuts) := by
  induction cuts using List.reverseRecOn with
  | nil => exact Or.inl rfl
  | append_singleton cuts fates ih =>
    have last : afterCalls N n amounts lockID secret dest ledger (cuts ++ [fates]) =
        ((sweep N n fates amounts lockID secret dest).run
          { state := afterCalls N n amounts lockID secret dest ledger cuts }).2.state :=
      List.foldl_append
    rw [last]
    rcases ih with same | swept
    · rw [same]
      exact (Locked.sweep_runs (w := { state := ledger }) locked known).met
    · generalize afterCalls N n amounts lockID secret dest ledger cuts = before at swept
      have kept : ((sweep N n fates amounts lockID secret dest).run { state := before }).2.state =
          before := (Swept.sweep_runs (w := { state := before }) swept known positive).met.1
      rw [kept]
      exact Or.inr swept

end Run

/-! ## A call that is not disturbed -/

/-- The keys sign, work is found, and the default representative has an address. -/
structure Honest (secret : Scalar) (rep : Bytes) : Prop where
  signs : ∀ hash, N.nanoVerify (N.pubOf secret) hash (N.nanoSign secret hash) = true
  works : ∀ root difficulty, N.work root difficulty ≠ [] ∧
    N.workMeets root (N.work root difficulty) = true
  keyed : (N.pubOf secret).length = 32
  represented : decodeNanoAddress N.blake2b40 defaultNanoRep = .ok rep

/-- The hashes of the two blocks are new. -/
structure Unused (joint lockID destPub rep : Bytes) (amount : Nat) (ledger : Ledger) : Prop where
  receive : nanoStateHash N joint zeroHash rep amount lockID ∉ zeroHash :: ledger.blocks
  send : nanoStateHash N joint (nanoStateHash N joint zeroHash rep amount lockID) rep 0
    destPub ∉ nanoStateHash N joint zeroHash rep amount lockID :: ledger.blocks

theorem decodeNanoAddress_length {blake2b40 : Bytes → Bytes} {addr pub : Bytes}
    (decoded : decodeNanoAddress blake2b40 addr = .ok pub) : pub.length = 32 := by
  obtain ⟨v, -, rfl, -⟩ := decodeNanoAddress_ok decoded
  exact length_bigEndian 32 v

section Undisturbed

variable {N} {n} {secret : Scalar} {lockID dest destPub rep : Bytes} {amount : Nat}
  {amounts : Bytes → Option Nat} {w : World Ledger Move}

theorem tries_ne_zero (url : String) : 3 * (endpoints n url).length ≠ 0 := by
  simp [endpoints]

/-- Work that is delivered meets its target. -/
theorem generateWork_delivered (honest : Honest N secret rep) {root : Bytes} {subtype : Subtype} :
    Runs (generateWork N n (fun _ => .delivered) root subtype) w fun result w' =>
      w'.state = w.state ∧ ∃ work, result = .ok work ∧ N.workMeets root work = true := by
  rw [generateWork]
  generalize (if subtype = .send then nanoSendDifficulty else nanoReceiveDifficulty) = difficulty
  obtain ⟨found, meets⟩ := honest.works root difficulty
  apply Runs.bind
  refine Runs.call_delivered (tries_ne_zero _) (fun answer next moves outcome => ?_)
    (fun text outcome => by cases outcome)
  simp only [service, Ledger.handle, pure, Except.pure, Except.ok.injEq, Prod.mk.injEq] at outcome
  obtain ⟨rfl, rfl, rfl⟩ := outcome
  simp only
  generalize N.work root difficulty = work at found meets
  cases work with
  | nil => exact absurd rfl found
  | cons first rest => exact Runs.pure ⟨rfl, _, rfl, meets⟩

/-- A block that is delivered is processed. -/
theorem publishState_delivered (honest : Honest N secret rep) {prev repAddr rep link : Bytes}
    {balance : Nat} {opened : Bool} {subtype : Subtype} (next : Ledger) (moves : List Move)
    (represented : decodeNanoAddress N.blake2b40 repAddr = .ok rep) (prevLength : prev.length = 32)
    (linkLength : link.length = 32) (small : balance < 2 ^ 128)
    (processed : ∀ work,
      N.workMeets (if opened then N.pubOf secret else prev) work = true →
      w.state.process N
        { account := N.pubOf secret, previous := prev, representative := rep, balance, link
          signature := N.nanoSign secret
            (nanoStateHash N (N.pubOf secret) prev rep balance link)
          work } = .ok (next, moves)) :
    Runs (publishState N n (fun _ => .delivered) (N.pubOf secret) prev repAddr balance link secret
      opened subtype) w fun result w' =>
        result = .ok (nanoStateHash N (N.pubOf secret) prev rep balance link) ∧
          w'.state = next := by
  rw [publishState]
  apply Runs.bind
  apply Runs.ofExcept
  rw [represented]
  simp only
  rw [if_neg (not_not.mpr prevLength), if_neg (not_not.mpr linkLength),
    if_neg (Nat.not_le.mpr small)]
  apply Runs.bind
  apply Runs.mono (generateWork_delivered honest)
  rintro result worked ⟨unchanged, work, rfl, meets⟩
  apply Runs.bind
  refine Runs.call_delivered (tries_ne_zero _) (fun answer after performed outcome => ?_)
    (fun text outcome => ?_)
  · simp only [service, Ledger.handle, unchanged, processed work meets, bind, Except.bind, pure,
      Except.pure, Except.ok.injEq, Prod.mk.injEq] at outcome
    obtain ⟨rfl, rfl, rfl⟩ := outcome
    have present := hash_ne_nil (N := N) ⟨N.pubOf secret, prev, rep, balance, link,
      N.nanoSign secret (nanoStateHash N (N.pubOf secret) prev rep balance link), work⟩
    rw [StateBlock.hash] at present ⊢
    dsimp only at present ⊢
    generalize nanoStateHash N (N.pubOf secret) prev rep balance link = hash at present ⊢
    cases hash with
    | nil => exact absurd rfl present
    | cons first rest => exact Runs.pure ⟨rfl, rfl⟩
  · simp only [service, Ledger.handle, unchanged, processed work meets, bind, Except.bind, pure,
      Except.pure] at outcome
    cases outcome

variable (N) in
/-- The ledger after the receive of the lock. -/
def Ledger.received (ledger : Ledger) (joint lockID rep : Bytes) (amount : Nat) : Ledger :=
  let hash := nanoStateHash N joint zeroHash rep amount lockID
  { accounts := ledger.accounts.insert joint ⟨hash, nanoAddress N.blake2b40 rep, amount⟩
    pending := ledger.pending.erase ⟨lockID, joint, amount⟩
    blocks := hash :: ledger.blocks }

/-- The joint account receives the lock. -/
theorem Locked.receives {ledger : Ledger} (honest : Honest N secret rep)
    (locked : Locked (N.pubOf secret) lockID amount ledger)
    (unused : Unused N (N.pubOf secret) lockID destPub rep amount ledger) {work : Bytes}
    (meets : N.workMeets (N.pubOf secret) work = true) :
    ledger.process N
        { account := N.pubOf secret, previous := zeroHash, representative := rep
          balance := amount, link := lockID
          signature := N.nanoSign secret
            (nanoStateHash N (N.pubOf secret) zeroHash rep amount lockID)
          work } =
      .ok (ledger.received N (N.pubOf secret) lockID rep amount, []) := by
  have new := (not_or.mp (List.mem_cons.not.mp unused.receive)).2
  simp only [Ledger.process, StateBlock.hash, honest.signs, Bool.not_true, Bool.false_eq_true,
    ↓reduceIte, meets, if_neg new, locked.unopened, ne_eq, not_true]
  rw [Ledger.collect, if_pos locked.receivable]
  rfl

variable (N) in
/-- The ledger after the send of the whole balance. -/
def Ledger.sentOn (ledger : Ledger) (joint lockID rep destPub : Bytes) (amount : Nat) : Ledger :=
  let received := ledger.received N joint lockID rep amount
  let hash := nanoStateHash N joint (nanoStateHash N joint zeroHash rep amount lockID) rep 0 destPub
  { accounts := received.accounts.insert joint ⟨hash, nanoAddress N.blake2b40 rep, 0⟩
    pending := received.pending ++ [⟨hash, destPub, amount⟩]
    blocks := hash :: received.blocks }

/-- The joint account sends what it received. -/
theorem Ledger.received_sends {ledger : Ledger} (honest : Honest N secret rep)
    (unused : Unused N (N.pubOf secret) lockID destPub rep amount ledger) (positive : 0 < amount)
    {work : Bytes}
    (meets : N.workMeets (nanoStateHash N (N.pubOf secret) zeroHash rep amount lockID) work =
      true) :
    (ledger.received N (N.pubOf secret) lockID rep amount).process N
        { account := N.pubOf secret
          previous := nanoStateHash N (N.pubOf secret) zeroHash rep amount lockID
          representative := rep, balance := 0, link := destPub
          signature := N.nanoSign secret (nanoStateHash N (N.pubOf secret)
            (nanoStateHash N (N.pubOf secret) zeroHash rep amount lockID) rep 0 destPub)
          work } =
      .ok (ledger.sentOn N (N.pubOf secret) lockID rep destPub amount,
        [⟨N.pubOf secret, destPub, amount⟩]) := by
  have first : nanoStateHash N (N.pubOf secret) zeroHash rep amount lockID ≠ zeroHash :=
    (not_or.mp (List.mem_cons.not.mp unused.receive)).1
  have new := unused.send
  have opened : (ledger.received N (N.pubOf secret) lockID rep amount).accounts[N.pubOf secret]? =
      some ⟨nanoStateHash N (N.pubOf secret) zeroHash rep amount lockID,
        nanoAddress N.blake2b40 rep, amount⟩ := by
    rw [Ledger.received, OrdMap.lookup_insert, if_pos rfl]
  have follows : ¬ (nanoStateHash N (N.pubOf secret) zeroHash rep amount lockID = zeroHash ∨
      nanoStateHash N (N.pubOf secret) zeroHash rep amount lockID ≠
        nanoStateHash N (N.pubOf secret) zeroHash rep amount lockID) :=
    not_or.mpr ⟨first, not_not.mpr rfl⟩
  simp only [Ledger.process, StateBlock.hash, honest.signs, Bool.not_true, Bool.false_eq_true,
    ↓reduceIte, if_neg first, meets, opened]
  rw [if_neg (show _ ∉ (ledger.received N (N.pubOf secret) lockID rep amount).blocks from new),
    if_neg follows, if_pos positive]
  rfl

/-- Before the receive took effect an undisturbed call moves the whole lock on. -/
theorem Locked.sweep_delivered (honest : Honest N secret rep)
    (locked : Locked (N.pubOf secret) lockID amount w.state)
    (unused : Unused N (N.pubOf secret) lockID destPub rep amount w.state)
    (known : amounts lockID = some amount) (positive : 0 < amount) (small : amount < 2 ^ 128)
    (length : lockID.length = 32)
    (destination : decodeNanoAddress N.blake2b40 dest = .ok destPub) :
    Runs (sweep N n (fun _ => .delivered) amounts lockID secret dest) w fun result w' =>
      result = .ok () ∧ ∃ hash, ⟨hash, destPub, amount⟩ ∈ w'.state.pending := by
  have represented := honest.represented
  have destLength := decodeNanoAddress_length destination
  rw [sweep]
  apply Runs.bind
  apply Runs.ofExcept
  rw [encodeNanoAddress, if_neg (not_not.mpr honest.keyed)]
  dsimp only
  apply Runs.bind
  apply Runs.within
  apply Runs.ofExcept
  rw [destination]
  dsimp only [Except.mapError]
  apply Runs.bind
  apply Runs.outcome
  apply Runs.mono accountInfo_same
  rintro info read ⟨readState, informed⟩
  dsimp only
  rw [locked.accountState_eq honest.keyed informed]
  dsimp only
  apply Runs.bind
  refine Runs.call_delivered (tries_ne_zero _) (fun recvAmt state moves outcome => ?_)
    (fun text outcome => ?_)
  · simp only [blockService, known, Except.ok.injEq, Prod.mk.injEq] at outcome
    obtain ⟨rfl, rfl, rfl⟩ := outcome
    dsimp only
    apply Runs.bind
    apply Runs.within
    rw [Nat.zero_add, if_pos rfl, if_pos rfl]
    apply Runs.mono (publishState_delivered honest
      (w.state.received N (N.pubOf secret) lockID rep amount) [] represented (by decide) length
      small (fun work meets => ?_))
    · rintro result received ⟨rfl, receivedState⟩
      dsimp only [Except.mapError]
      apply Runs.bind
      apply Runs.within
      apply Runs.mono (publishState_delivered honest
        (w.state.sentOn N (N.pubOf secret) lockID rep destPub amount)
        [⟨N.pubOf secret, destPub, amount⟩] represented (N.blake2b256_length _) destLength
        (by decide) (fun work meets => ?_))
      · rintro result sent ⟨rfl, sentState⟩
        have moved : ∃ hash, ⟨hash, destPub, amount⟩ ∈
            (w.state.sentOn N (N.pubOf secret) lockID rep destPub amount).pending :=
          ⟨_, List.mem_append_right _ (List.mem_singleton_self _)⟩
        exact Runs.pure ⟨rfl, sentState ▸ moved⟩
      · rw [receivedState]
        exact Ledger.received_sends honest unused positive meets
    · have before : read.state = w.state := readState
      simp only [World.handled, before]
      exact locked.receives honest unused meets
  · simp only [blockService, known] at outcome
    cases outcome

end Undisturbed

/-! ## Resuming a sweep -/

/-- An undisturbed sweep succeeds, and the whole amount waits for the destination. -/
def Delivered (amounts : Bytes → Option Nat) (lockID : Bytes) (secret : Scalar)
    (dest destPub : Bytes) (amount : Nat) (ledger : Ledger) : Prop :=
  let run := (sweep N n (fun _ => .delivered) amounts lockID secret dest).run { state := ledger }
  run.1 = .ok () ∧ ∃ hash, ⟨hash, destPub, amount⟩ ∈ run.2.state.pending

/-- After any number of calls that were cut off anywhere, an undisturbed sweep brings the lock to
its destination exactly when the receive of none of them took effect. -/
theorem sweep_resumes_iff (secret : Scalar) (rep : Bytes) (honest : Honest N secret rep)
    (amounts : Bytes → Option Nat) (lockID dest destPub : Bytes) (amount : Nat) (ledger : Ledger)
    (locked : Locked (N.pubOf secret) lockID amount ledger)
    (unused : Unused N (N.pubOf secret) lockID destPub rep amount ledger)
    (known : amounts lockID = some amount) (positive : 0 < amount) (small : amount < 2 ^ 128)
    (length : lockID.length = 32)
    (destination : decodeNanoAddress N.blake2b40 dest = .ok destPub)
    (cuts : List (Nat → Fate)) :
    Delivered N n amounts lockID secret dest destPub amount
        (afterCalls N n amounts lockID secret dest ledger cuts) ↔
      (afterCalls N n amounts lockID secret dest ledger cuts).accounts[N.pubOf secret]? = none := by
  rcases afterCalls_spec locked known positive cuts with same | swept
  · rw [same]
    refine iff_of_true ?_ locked.unopened
    exact (Locked.sweep_delivered (w := { state := ledger }) honest locked unused known positive
      small length destination).met
  · generalize afterCalls N n amounts lockID secret dest ledger cuts = after at swept ⊢
    obtain ⟨acc, opened⟩ := swept.opened
    refine iff_of_false (fun delivered => ?_) (by simp [opened])
    obtain ⟨-, text, failed⟩ := (Swept.sweep_runs (w := { state := after }) swept known
      positive).met
    exact nomatch delivered.1.symm.trans failed

/-! ## A sweep that never succeeds again -/

/-- The checksum of the default representative. -/
def repChecksum : Bytes :=
  ((decodeBase32Bits (defaultNanoRep.drop 57) 5).toOption.getD []).reverse

/-- The toy Nano, with the checksum that the default representative has. -/
def sweepNano : Nano Unit :=
  { toyNano with
    blake2b40 := fun _ => repChecksum
    blake2b40_length := fun _ => by decide }

/-- The key of the joint account. -/
def jointKey : Bytes := List.replicate 32 7

/-- The block that locks. -/
def lockHash : Bytes := List.replicate 32 9

/-- The key that the sweep pays. -/
def destKey : Bytes := List.replicate 32 4

/-- The address that the sweep pays. -/
def destAddress : Bytes := nanoAddress sweepNano.blake2b40 destKey

/-- A lock of 5 raw that the joint account has not received. -/
def lockedLedger : Ledger where
  pending := [⟨lockHash, jointKey, 5⟩]
  blocks := [lockHash]

/-- The node knows the lock alone. -/
def amountOf (hash : Bytes) : Option Nat := if hash = lockHash then some 5 else none

/-- The key of the default representative. -/
def repKey : Bytes := ((decodeNanoAddress sweepNano.blake2b40 defaultNanoRep).toOption).getD []

theorem sweepNano_honest : Honest sweepNano () repKey where
  signs _ := rfl
  works _ _ := ⟨List.cons_ne_nil _ _, rfl⟩
  keyed := List.length_replicate
  represented := by decide

theorem lockedLedger_locked : Locked (sweepNano.pubOf ()) lockHash 5 lockedLedger where
  unopened := by decide
  receivable := List.mem_singleton_self _
  once := List.nodup_singleton _
  recorded := List.mem_singleton_self _

theorem lockedLedger_unused :
    Unused sweepNano (sweepNano.pubOf ()) lockHash destKey repKey 5 lockedLedger where
  receive := by decide
  send := by decide

theorem destAddress_decodes : decodeNanoAddress sweepNano.blake2b40 destAddress = .ok destKey :=
  decode_nanoAddress _ List.length_replicate (sweepNano.blake2b40_length _)

/-- A first call that never gets an answer does no harm. -/
theorem sweep_resumes_sample :
    Delivered sweepNano keyRPC amountOf lockHash () destAddress destKey 5
        (afterCalls sweepNano keyRPC amountOf lockHash () destAddress lockedLedger
          [fun _ => .requestLost]) ↔
      (afterCalls sweepNano keyRPC amountOf lockHash () destAddress lockedLedger
        [fun _ => .requestLost]).accounts[sweepNano.pubOf ()]? = none :=
  sweep_resumes_iff sweepNano keyRPC () repKey sweepNano_honest amountOf lockHash destAddress
    destKey 5 lockedLedger lockedLedger_locked lockedLedger_unused rfl (by decide) (by decide)
    List.length_replicate destAddress_decodes _

/-- When the answer to the receive is lost, no later sweep succeeds. -/
theorem sweep_stuck : ¬ ∀ (Scalar : Type) (N : Nano Scalar) (n : NanoRPC Scalar) (secret : Scalar)
    (rep : Bytes), Honest N secret rep → ∀ (amounts : Bytes → Option Nat)
    (lockID dest destPub : Bytes) (amount : Nat) (ledger : Ledger),
    Locked (N.pubOf secret) lockID amount ledger →
    Unused N (N.pubOf secret) lockID destPub rep amount ledger →
    amounts lockID = some amount → 0 < amount → amount < 2 ^ 128 → lockID.length = 32 →
    decodeNanoAddress N.blake2b40 dest = .ok destPub → ∀ cuts : List (Nat → Fate),
      Delivered N n amounts lockID secret dest destPub amount
        (afterCalls N n amounts lockID secret dest ledger cuts) := by
  intro promise
  have delivered := (promise Unit sweepNano keyRPC () repKey sweepNano_honest amountOf lockHash
    destAddress destKey 5 lockedLedger lockedLedger_locked lockedLedger_unused rfl (by decide)
    (by decide) List.length_replicate destAddress_decodes [loseResponse 3]).1
  revert delivered
  set_option maxRecDepth 8000 in
  decide

end Obscura.Swapd
