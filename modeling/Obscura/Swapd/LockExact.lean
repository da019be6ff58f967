import Obscura.Swapd.NanoRPC

/-! # Exactness of a lock

What one `Lock` moves for every pattern of losses. The calls that only read leave the
ledger alone, and a receive only adds to the funding account, so the moves of a lock
are those of its single send: one for each response that was lost, and a last one
when the send is answered. With the funding key the same block is processed again
after a lost response and is refused as old; the node wallet builds another block and
pays again.
-/

namespace Obscura.Swapd

open Wire Lossy

variable {Scalar : Type} (N : Nano Scalar) (n : NanoRPC Scalar) (fates : Nat → Fate)

/-- The account that a lock pays from. -/
def NanoRPC.fundingAccount : Option Bytes :=
  match n.walletID, n.fundSecret with
  | [], some secret => some (N.pubOf secret)
  | _, _ => (decodeNanoAddress N.blake2b40 n.source).toOption

/-- XNO leaves the funding account at most once and by the amount, for the joint account, and
has not left it when the lock failed. -/
structure ExactLock (amount : Option Int) (accountPub : Bytes) (result : Except String Bytes)
    (moves : List Move) : Prop where
  atMostOnce : moves.length ≤ 1
  exactly : ∀ move ∈ moves, n.fundingAccount N = some move.source ∧
    move.destination = accountPub ∧ amount = some (move.amount : Int)
  failed : ∀ text, result = .error text → moves = []

/-! ## Requests that move nothing -/

section Requests

variable {N} {n} {fates}

/-- A question for an account moves nothing. -/
theorem accountInfo_handled {address : Bytes} {state next : Ledger} {answer : Answer}
    {moves : List Move}
    (outcome : (service N).handle state (.accountInfo address) = .ok (answer, next, moves)) :
    next = state ∧ moves = [] ∧ ∃ account acc, decodeNanoAddress N.blake2b40 address = .ok account ∧
      state.accounts[account]? = some acc ∧
      answer = .info acc.frontier acc.representative acc.balance := by
  simp only [service, Ledger.handle, bind, Except.bind] at outcome
  cases decoded : decodeNanoAddress N.blake2b40 address with
  | error text => simp [decoded] at outcome
  | ok account =>
    cases found : state.accounts[account]? with
    | none => simp [decoded, found, throw, throwThe, MonadExceptOf.throw] at outcome
    | some acc =>
      simp only [decoded, found, pure, Except.pure, Except.ok.injEq, Prod.mk.injEq] at outcome
      obtain ⟨rfl, rfl, rfl⟩ := outcome
      exact ⟨rfl, rfl, account, acc, rfl, found, rfl⟩

theorem receivable_handled {address : Bytes} {state next : Ledger} {answer : Answer}
    {moves : List Move}
    (outcome : (service N).handle state (.receivable address) = .ok (answer, next, moves)) :
    next = state ∧ moves = [] := by
  simp only [service, Ledger.handle, bind, Except.bind] at outcome
  cases decoded : decodeNanoAddress N.blake2b40 address with
  | error text => simp [decoded] at outcome
  | ok account =>
    simp only [decoded, pure, Except.pure, Except.ok.injEq, Prod.mk.injEq] at outcome
    exact ⟨outcome.2.1.symm, outcome.2.2.symm⟩

theorem workGenerate_handled {hash difficulty : Bytes} {state next : Ledger} {answer : Answer}
    {moves : List Move}
    (outcome : (service N).handle state (.workGenerate hash difficulty) =
      .ok (answer, next, moves)) :
    next = state ∧ moves = [] := by
  simp only [service, Ledger.handle, pure, Except.pure, Except.ok.injEq, Prod.mk.injEq] at outcome
  exact ⟨outcome.2.1.symm, outcome.2.2.symm⟩

theorem call_reads {url : String} {request : Request} {w : World Ledger Move}
    (answered : Answer → Prop)
    (handled : ∀ answer next moves,
      (service N).handle w.state request = .ok (answer, next, moves) →
        next = w.state ∧ moves = [] ∧ answered answer) :
    Runs (call N n fates url request) w fun result w' =>
      w'.state = w.state ∧ w'.trace = w.trace ∧
        ∀ answer, result = .ok answer → answered answer := by
  apply Runs.mono (Runs.call (· = w.state) (fun answer _ => answered answer) [] ?_ _ rfl)
  · rintro result w' ⟨unchanged, known, repeated⟩
    exact ⟨unchanged, repeated.of_nil, known⟩
  · rintro state answer next performed rfl outcome
    obtain ⟨same, none, known⟩ := handled answer next performed outcome
    exact ⟨same, known, none⟩

end Requests

/-! ## Blocks of the funding key -/

/-- The frontier and the balance of an account, as far as a block after that frontier can
depend on them. -/
def Tracks (ledger : Ledger) (pub prev : Bytes) (bal : Nat) : Prop :=
  match ledger.accounts[pub]? with
  | none => bal = 0
  | some acc => acc.frontier = prev → prev ≠ zeroHash → acc.balance = bal

/-- What a block moves out of its account. -/
def StateBlock.moves (block : StateBlock) (bal : Nat) : List Move :=
  if block.balance < bal then [⟨block.account, block.link, bal - block.balance⟩] else []

section Blocks

variable {N}

/-- What a receive block leaves. -/
theorem collect_ok {ledger next : Ledger} {hash : Bytes} {block : StateBlock} {amount : Nat}
    {moves : List Move} (outcome : ledger.collect N hash block amount = .ok (next, moves)) :
    moves = [] ∧ hash ∈ next.blocks ∧ next.accounts[block.account]? =
      some ⟨hash, nanoAddress N.blake2b40 block.representative, block.balance⟩ := by
  rw [Ledger.collect] at outcome
  split_ifs at outcome
  obtain ⟨rfl, rfl⟩ := Prod.mk.inj (Except.ok.inj outcome)
  refine ⟨rfl, List.mem_cons_self, ?_⟩
  rw [OrdMap.lookup_insert, if_pos rfl]

theorem pay_spec (ledger : Ledger) (hash : Bytes) (block : StateBlock) (acc : Account) :
    hash ∈ (ledger.pay N hash block acc).1.blocks ∧
      (ledger.pay N hash block acc).1.accounts[block.account]? =
        some ⟨hash, nanoAddress N.blake2b40 block.representative, block.balance⟩ := by
  refine ⟨List.mem_cons_self, ?_⟩
  simp only [Ledger.pay]
  rw [OrdMap.lookup_insert, if_pos rfl]

/-- A block that is processed after a frontier whose balance is known is a new one, moves the
difference of the balances, and is the account's frontier from then on. -/
theorem process_ok {ledger next : Ledger} {block : StateBlock} {bal : Nat} {moves : List Move}
    (known : block.hash N ∈ ledger.blocks ∨ Tracks ledger block.account block.previous bal)
    (outcome : ledger.process N block = .ok (next, moves)) :
    moves = block.moves bal ∧ block.hash N ∈ next.blocks ∧
      next.accounts[block.account]? =
        some ⟨block.hash N, nanoAddress N.blake2b40 block.representative, block.balance⟩ := by
  simp only [Ledger.process] at outcome
  generalize (if block.previous = zeroHash then block.account else block.previous) = root
    at outcome
  rw [Tracks] at known
  cases found : ledger.accounts[block.account]? with
  | none =>
    simp only [found] at outcome known
    split_ifs at outcome with unsigned workless old gap
    have empty := known.resolve_left old
    obtain ⟨rfl, recorded, stored⟩ := collect_ok outcome
    refine ⟨?_, recorded, stored⟩
    rw [StateBlock.moves, if_neg (by omega)]
  | some acc =>
    simp only [found] at outcome known
    split_ifs at outcome with unsigned workless old fork lower higher
    · obtain ⟨opened, follows⟩ := not_or.mp fork
      have same := known.resolve_left old (not_not.mp follows).symm opened
      obtain ⟨rfl, rfl⟩ := Prod.mk.inj (Except.ok.inj outcome)
      refine ⟨?_, pay_spec ledger (block.hash N) block acc⟩
      rw [StateBlock.moves, if_pos (same ▸ lower), same]
    · obtain ⟨opened, follows⟩ := not_or.mp fork
      have same := known.resolve_left old (not_not.mp follows).symm opened
      obtain ⟨rfl, recorded, stored⟩ := collect_ok outcome
      refine ⟨?_, recorded, stored⟩
      rw [StateBlock.moves, if_neg (same ▸ lower)]

/-- A block that the node processes, or knows already. -/
theorem process_handled {state next : Ledger} {block : StateBlock} {subtype : Subtype} {bal : Nat}
    {answer : Answer} {moves : List Move}
    (known : block.hash N ∈ state.blocks ∨ Tracks state block.account block.previous bal)
    (outcome : (service N).handle state (.process block subtype) = .ok (answer, next, moves)) :
    block.hash N ∈ next.blocks ∧ answer = .processed (block.hash N) ∧
      Tracks next block.account (block.hash N) block.balance ∧ moves = block.moves bal := by
  simp only [service, Ledger.handle, bind, Except.bind] at outcome
  cases processed : state.process N block with
  | error text => simp [processed] at outcome
  | ok after =>
    simp only [processed, pure, Except.pure, Except.ok.injEq, Prod.mk.injEq] at outcome
    obtain ⟨rfl, rfl, rfl⟩ := outcome
    obtain ⟨moved, recorded, stored⟩ := process_ok known processed
    refine ⟨recorded, rfl, ?_, moved⟩
    rw [Tracks, stored]
    exact fun _ _ => rfl

end Blocks

/-! ## The calls of a lock -/

section Lock

variable {N} {n} {fates}

theorem hash_ne_nil (block : StateBlock) : block.hash N ≠ [] := by
  intro empty
  have length := N.blake2b256_length (List.replicate 31 0 ++ [6] ++ block.account ++
    block.previous ++ block.representative ++ bigEndian 16 block.balance ++ block.link)
  rw [← nanoStateHash, ← StateBlock.hash, empty] at length
  exact absurd length (by decide)

/-- Work moves nothing. -/
theorem generateWork_runs {root : Bytes} {subtype : Subtype} {w : World Ledger Move} :
    Runs (generateWork N n fates root subtype) w fun _ w' =>
      w'.state = w.state ∧ w'.trace = w.trace := by
  rw [generateWork]
  apply Runs.bind
  apply Runs.mono (call_reads (fun _ => True) fun answer next moves outcome => by
    obtain ⟨same, none⟩ := workGenerate_handled outcome
    exact ⟨same, none, trivial⟩)
  rintro result w' ⟨unchanged, trace, -⟩
  cases result with
  | error text => exact ⟨unchanged, trace⟩
  | ok answer =>
    simp only
    split
    · exact Runs.fail ⟨unchanged, trace⟩
    · exact Runs.pure ⟨unchanged, trace⟩
    · exact Runs.fail ⟨unchanged, trace⟩

/-- A processed block has its moves once for every response that was lost, and a last time when
its hash comes back: a handled block is old when it comes again, so that no later request to
process it is answered. -/
theorem process_runs {block : StateBlock} {subtype : Subtype} {bal : Nat} {w : World Ledger Move}
    (tracked : Tracks w.state block.account block.previous bal) :
    Runs (call N n fates n.url (.process block subtype)) w fun result w' =>
      (∀ answer, result = .ok answer → answer = .processed (block.hash N) ∧
        Tracks w'.state block.account (block.hash N) block.balance) ∧
      Repeated (block.moves bal) w.trace result w'.trace := by
  apply Runs.mono (Runs.call
    (fun state => block.hash N ∈ state.blocks ∨ Tracks state block.account block.previous bal)
    (fun answer state => answer = .processed (block.hash N) ∧
      Tracks state block.account (block.hash N) block.balance)
    (block.moves bal) ?_ _ (.inr tracked))
  · rintro result w' ⟨-, known, repeated⟩
    exact ⟨known, repeated⟩
  · intro state answer next performed known outcome
    obtain ⟨recorded, answered, tracks, moved⟩ := process_handled known outcome
    exact ⟨.inl recorded, ⟨answered, tracks⟩, moved⟩

/-- A published block: as `process_runs`, and its hash is the frontier from then on. -/
theorem publishState_runs {pub prev repAddr link : Bytes} {balance bal : Nat} {secret : Scalar}
    {opened : Bool} {subtype : Subtype} {w : World Ledger Move}
    (tracked : Tracks w.state pub prev bal) :
    Runs (publishState N n fates pub prev repAddr balance link secret opened subtype) w
      fun result w' =>
        (∀ hash, result = .ok hash → hash ≠ [] ∧ Tracks w'.state pub hash balance) ∧
        Repeated (if balance < bal then [⟨pub, link, bal - balance⟩] else []) w.trace result
          w'.trace := by
  have stopped (text : String) (w' : World Ledger Move) (trace : w'.trace = w.trace) :
      (∀ hash, Except.error (α := Bytes) text = .ok hash →
        hash ≠ [] ∧ Tracks w'.state pub hash balance) ∧
      Repeated (if balance < bal then [(⟨pub, link, bal - balance⟩ : Move)] else []) w.trace
        (Except.error (α := Bytes) text) w'.trace :=
    ⟨nofun, 0, by simp [trace]⟩
  rw [publishState]
  apply Runs.bind
  apply Runs.ofExcept
  cases decodeNanoAddress N.blake2b40 repAddr with
  | error text => exact stopped text w rfl
  | ok representative =>
    simp only
    split
    · exact Runs.fail (stopped _ w rfl)
    split
    · exact Runs.fail (stopped _ w rfl)
    split
    · exact Runs.fail (stopped _ w rfl)
    apply Runs.bind
    apply Runs.mono generateWork_runs
    rintro result worked ⟨unchanged, trace⟩
    cases result with
    | error text => exact stopped text worked trace
    | ok work =>
      apply Runs.bind
      apply Runs.mono (process_runs (unchanged.symm ▸ tracked))
      rintro result w' ⟨known, repeated⟩
      rw [trace] at repeated
      cases result with
      | error text => exact ⟨nofun, repeated⟩
      | ok answer =>
        obtain ⟨rfl, tracks⟩ := known answer rfl
        have present := hash_ne_nil (N := N) ⟨pub, prev, representative, balance, link,
          N.nanoSign secret (nanoStateHash N pub prev representative balance link), work⟩
        revert tracks repeated present
        generalize StateBlock.hash N _ = hash
        intro tracks repeated present
        cases hash with
        | nil => exact absurd rfl present
        | cons first rest =>
          refine Runs.pure ⟨fun hash same => ?_, repeated⟩
          cases same
          exact ⟨present, tracks⟩

theorem receivable_runs {account : Bytes} {w : World Ledger Move} :
    Runs (receivable N n fates account) w fun _ w' =>
      w'.state = w.state ∧ w'.trace = w.trace := by
  rw [receivable]
  apply Runs.bind
  apply Runs.outcome
  apply Runs.mono (call_reads (fun _ => True) fun answer next moves outcome => by
    obtain ⟨same, none⟩ := receivable_handled outcome
    exact ⟨same, none, trivial⟩)
  rintro result w' ⟨unchanged, trace, -⟩
  simp only
  split
  · exact Runs.pure ⟨unchanged, trace⟩
  · exact Runs.pure ⟨unchanged, trace⟩

/-- Receiving moves nothing, and what it returns tracks the account. -/
theorem receiveUntil_runs {fromPub fromAddr rep : Bytes} {secret : Scalar} {amount : Nat}
    (rounds : Nat) {prev : Bytes} {bal : Nat} {w : World Ledger Move}
    (tracked : Tracks w.state fromPub prev bal) :
    Runs (receiveUntil N n fates fromPub fromAddr rep secret amount rounds prev bal) w
      fun result w' => w'.trace = w.trace ∧
        ∀ last, result = .ok last → Tracks w'.state fromPub last.1 last.2 := by
  have settled {prev : Bytes} {bal : Nat} {w w' : World Ledger Move} (trace : w'.trace = w.trace)
      (tracked : Tracks w'.state fromPub prev bal) :
      w'.trace = w.trace ∧
        ∀ last, (Except.ok (prev, bal) : Except String (Bytes × Nat)) = .ok last →
          Tracks w'.state fromPub last.1 last.2 := by
    refine ⟨trace, fun last same => ?_⟩
    cases same
    exact tracked
  induction rounds generalizing prev bal w with
  | zero => exact Runs.pure (settled rfl tracked)
  | succ rounds ih =>
    rw [receiveUntil]
    split
    · exact Runs.pure (settled rfl tracked)
    apply Runs.bind
    apply Runs.mono receivable_runs
    rintro result read ⟨unchanged, readTrace⟩
    rw [← unchanged] at tracked
    cases result with
    | error text => exact ⟨readTrace, nofun⟩
    | ok best =>
      cases best with
      | none => exact Runs.pure (settled readTrace tracked)
      | some entry =>
        apply Runs.bind
        apply Runs.within
        apply Runs.mono (publishState_runs tracked)
        rintro result w' ⟨known, repeated⟩
        -- The balance grows, so that the block moves nothing.
        rw [if_neg (by omega)] at repeated
        have trace := repeated.of_nil.trans readTrace
        cases result with
        | error text => exact ⟨trace, nofun⟩
        | ok hash =>
          apply Runs.mono (ih (known hash rfl).2)
          rintro result last ⟨received, tracks⟩
          exact ⟨received.trans trace, tracks⟩

theorem accountInfo_runs {pub : Bytes} (length : pub.length = 32) {url : String}
    {w : World Ledger Move} :
    Runs (call N n fates url (.accountInfo (nanoAddress N.blake2b40 pub))) w fun result w' =>
      w'.trace = w.trace ∧
        Tracks w'.state pub (if (accountState result).1 = [] then zeroHash
          else (accountState result).1) (accountState result).2.2 := by
  apply Runs.mono (call_reads (fun answer => ∃ acc, w.state.accounts[pub]? = some acc ∧
    answer = .info acc.frontier acc.representative acc.balance) fun answer next moves outcome => ?_)
  · rintro result w' ⟨unchanged, trace, known⟩
    refine ⟨trace, ?_⟩
    rw [unchanged, Tracks]
    cases result with
    | error text =>
      cases w.state.accounts[pub]? with
      | none => rfl
      | some acc => exact fun _ opened => absurd rfl opened
    | ok answer =>
      obtain ⟨acc, found, rfl⟩ := known answer rfl
      rw [found]
      exact fun _ _ => rfl
  · obtain ⟨same, none, account, acc, decoded, found, rfl⟩ := accountInfo_handled outcome
    rw [decode_nanoAddress N.blake2b40 length (N.blake2b40_length pub)] at decoded
    cases decoded
    exact ⟨same, none, acc, found, rfl⟩

variable (N n) in
/-- The single send of a lock, repeated as often as its responses were lost. -/
def Sends (amount : Option Int) (accountPub : Bytes) (result : Except String Bytes)
    (trace : List (Move × Bool)) : Prop :=
  trace = [] ∨ ∃ move : Move, n.fundingAccount N = some move.source ∧
    move.destination = accountPub ∧ amount = some (move.amount : Int) ∧
    Repeated [move] [] result trace

/-- A lock with the client's own key sends what it says. -/
theorem lockLocalKey_runs {secret : Scalar} {amount : Nat} {accountPub : Bytes}
    {w : World Ledger Move} (keyed : n.fundingAccount N = some (N.pubOf secret))
    (fresh : w.trace = []) :
    Runs (lockLocalKey N n fates secret amount accountPub) w fun result w' =>
      Sends N n (some amount) accountPub result w'.trace := by
  rw [lockLocalKey]
  split
  · exact Runs.fail (.inl fresh)
  next accountLength =>
  split
  · exact Runs.fail (.inl fresh)
  apply Runs.bind
  apply Runs.ofExcept
  rw [encodeNanoAddress]
  split_ifs with fromLength
  · exact .inl fresh
  dsimp only
  apply Runs.bind
  apply Runs.ofExcept
  rw [encodeNanoAddress, if_neg accountLength]
  dsimp only
  apply Runs.bind
  apply Runs.ofExcept
  rw [decode_nanoAddress N.blake2b40 (not_not.mp accountLength) (N.blake2b40_length accountPub)]
  dsimp only
  apply Runs.bind
  apply Runs.outcome
  apply Runs.mono (accountInfo_runs (not_not.mp fromLength))
  rintro info read ⟨readTrace, tracked⟩
  rw [fresh] at readTrace
  dsimp only
  revert tracked
  generalize accountState info = state
  obtain ⟨frontier, representative, balance⟩ := state
  intro tracked
  dsimp only
  apply Runs.bind
  apply Runs.mono (Runs.scheduled (receiveUntil_runs _ tracked))
  rintro received funded ⟨receivedTrace, tracks⟩
  rw [readTrace] at receivedTrace
  cases received with
  | error text => exact .inl receivedTrace
  | ok last =>
    obtain ⟨prev, bal⟩ := last
    have tracked := tracks _ rfl
    dsimp only
    split
    · exact Runs.fail (.inl receivedTrace)
    next enough =>
    apply Runs.bind
    apply Runs.within
    apply Runs.mono (publishState_runs tracked)
    rintro result w' ⟨present, repeated⟩
    rw [receivedTrace] at repeated
    have sends : Sends N n (some amount) accountPub result w'.trace := by
      split_ifs at repeated with spends
      · refine .inr ⟨_, keyed, rfl, ?_, repeated⟩
        rw [Nat.sub_sub_self (Nat.not_lt.mp enough)]
      · exact .inl repeated.of_nil
    cases result with
    | error text => exact sends
    | ok lockID =>
      dsimp only [Except.mapError]
      rw [if_neg (present lockID rfl).1]
      exact Runs.pure sends

/-- A send from a node's wallet. -/
theorem send_handled {wallet source destination : Bytes} {amount : Nat} {state next : Ledger}
    {answer : Answer} {moves : List Move}
    (outcome : (service N).handle state (.send wallet source destination amount) =
      .ok (answer, next, moves)) :
    ∃ account link hash, decodeNanoAddress N.blake2b40 source = .ok account ∧
      decodeNanoAddress N.blake2b40 destination = .ok link ∧ hash ≠ [] ∧ answer = .sent hash ∧
      moves = [⟨account, link, amount⟩] := by
  simp only [service, Ledger.handle, Ledger.walletSend, bind, Except.bind, pure, Except.pure, throw,
    throwThe, MonadExceptOf.throw] at outcome
  cases paying : decodeNanoAddress N.blake2b40 source with
  | error text => simp [paying] at outcome
  | ok account =>
    cases paid : decodeNanoAddress N.blake2b40 destination with
    | error text => simp [paying, paid] at outcome
    | ok link =>
      simp only [paying, paid] at outcome
      split_ifs at outcome
      cases found : state.accounts[account]? with
      | none => simp [found] at outcome
      | some acc =>
        simp only [found] at outcome
        split_ifs at outcome with short
        cases rep : decodeNanoAddress N.blake2b40 acc.representative with
        | error text => simp [rep] at outcome
        | ok representative =>
          simp only [rep, Except.ok.injEq, Prod.mk.injEq] at outcome
          obtain ⟨rfl, rfl, rfl⟩ := outcome
          refine ⟨account, link, _, rfl, rfl, hash_ne_nil _, rfl, ?_⟩
          rw [Ledger.pay, Nat.sub_sub_self (Nat.not_lt.mp (not_or.mp short).2)]

/-- The node wallet pays once for every response that was lost, and a last time when it answers:
nothing tells it that a request is a repetition. -/
theorem send_runs {wallet source destination : Bytes} {amount : Nat} {w : World Ledger Move} :
    Runs (call N n fates n.url (.send wallet source destination amount)) w fun result w' =>
      (∀ answer, result = .ok answer → ∃ hash, hash ≠ [] ∧ answer = .sent hash) ∧
      (w'.trace = w.trace ∨ ∃ account link, decodeNanoAddress N.blake2b40 source = .ok account ∧
        decodeNanoAddress N.blake2b40 destination = .ok link ∧
        Repeated [⟨account, link, amount⟩] w.trace result w'.trace) := by
  by_cases decodes : ∃ account link, decodeNanoAddress N.blake2b40 source = .ok account ∧
      decodeNanoAddress N.blake2b40 destination = .ok link
  · obtain ⟨account, link, paying, paid⟩ := decodes
    apply Runs.mono (Runs.call (fun _ => True) (fun answer _ => ∃ hash, hash ≠ [] ∧
      answer = .sent hash) [⟨account, link, amount⟩] ?_ _ trivial)
    · rintro result w' ⟨-, known, repeated⟩
      exact ⟨known, .inr ⟨account, link, paying, paid, repeated⟩⟩
    · intro state answer next moves _ outcome
      obtain ⟨account', link', hash, paying', paid', present, answered, moved⟩ :=
        send_handled outcome
      cases paying.symm.trans paying'
      cases paid.symm.trans paid'
      exact ⟨trivial, ⟨hash, present, answered⟩, moved⟩
  · apply Runs.mono (call_reads (fun _ => False) fun answer next moves outcome => by
      obtain ⟨account, link, hash, paying, paid, -⟩ := send_handled outcome
      exact absurd ⟨account, link, paying, paid⟩ decodes)
    rintro result w' ⟨-, trace, known⟩
    exact ⟨fun answer returned => (known answer returned).elim, .inl trace⟩

/-- What a lock moves for every pattern of losses. -/
theorem lock_runs {amount : Option Int} {accountPub : Bytes} {w : World Ledger Move}
    (fresh : w.trace = []) :
    Runs (lock N n fates amount accountPub) w fun result w' =>
      Sends N n amount accountPub result w'.trace := by
  cases amount with
  | none => exact Runs.fail (.inl fresh)
  | some amount =>
    dsimp only [lock]
    split
    · exact Runs.fail (.inl fresh)
    next sign =>
    obtain ⟨units, rfl⟩ := Int.eq_ofNat_of_zero_le (Int.not_lt.mp sign)
    split
    · next wallet secret wallet funded =>
        refine lockLocalKey_runs ?_ fresh
        rw [NanoRPC.fundingAccount, wallet, funded]
    · exact Runs.fail (.inl fresh)
    · next wallet funded =>
        split
        · exact Runs.fail (.inl fresh)
        apply Runs.bind
        apply Runs.ofExcept
        rw [encodeNanoAddress]
        split_ifs with length
        · exact .inl fresh
        dsimp only
        apply Runs.bind
        apply Runs.mono send_runs
        rintro result w' ⟨known, moved⟩
        rw [fresh] at moved
        have sends :
            Sends N n (some (units : Int)) accountPub (result.map fun _ => []) w'.trace := by
          rcases moved with none | ⟨account, link, paying, paid, repeated⟩
          · exact .inl none
          · rw [decode_nanoAddress N.blake2b40 (not_not.mp length)
              (N.blake2b40_length accountPub)] at paid
            cases paid
            refine .inr ⟨⟨account, accountPub, units⟩, ?_, rfl, rfl, ?_⟩
            · rw [NanoRPC.fundingAccount, paying]
              split
              · next secret wallet' funded' => exact (wallet secret wallet' funded').elim
              · rfl
            · cases result with
              | ok answer => exact repeated
              | error text => exact repeated
        cases result with
        | error text => exact sends
        | ok answer =>
          obtain ⟨hash, present, rfl⟩ := known answer rfl
          cases hash with
          | nil => exact absurd rfl present
          | cons first rest => exact Runs.pure sends

end Lock

/-! ## Exactness -/

theorem exactLock_nothing {amount : Option Int} {accountPub : Bytes}
    {result : Except String Bytes} : ExactLock N n amount accountPub result [] :=
  ⟨Nat.zero_le 1, nofun, fun _ _ => rfl⟩

/-- **Exactness** of a lock whose sends are known. -/
theorem exactLock_iff_of_sends {amount : Option Int} {accountPub : Bytes}
    {result : Except String Bytes} {trace : List (Move × Bool)}
    (sends : Sends N n amount accountPub result trace) :
    ExactLock N n amount accountPub result (trace.map Prod.fst) ↔
      ∀ entry ∈ trace, entry.2 = true := by
  rcases sends with rfl | ⟨move, source, destination, units, count, rfl⟩
  · exact iff_of_true (exactLock_nothing N n) nofun
  have repeats : (List.replicate count ([move].map fun sent => (sent, false))).flatten =
      List.replicate count (move, false) := by
    rw [List.map_singleton, List.flatten_replicate_singleton]
  rw [List.nil_append, repeats]
  cases count with
  | zero =>
    rw [List.replicate_zero, List.nil_append]
    cases result with
    | ok hash =>
      refine iff_of_true ⟨Nat.le_refl 1, fun sent among => ?_, nofun⟩ fun entry among => ?_
      · cases List.mem_singleton.mp among
        exact ⟨source, destination, units⟩
      · cases List.mem_singleton.mp among
        rfl
    | error text => exact iff_of_true (exactLock_nothing N n) nofun
  | succ count =>
    refine iff_of_false (fun exact_ => ?_) fun answered =>
      absurd (answered (move, false) (List.mem_append_left _ List.mem_cons_self)) nofun
    cases result with
    | ok hash =>
      have once := exact_.atMostOnce
      rw [List.length_map, List.length_append, List.length_replicate] at once
      exact absurd once (by simp)
    | error text => exact absurd (exact_.failed text rfl) (by simp [List.replicate_succ])

/-- **Exactness of a lock.** For every pattern of losses, a lock moves XNO out of the funding
account at most once and by exactly the amount, and moves none when it fails, exactly when the
response to every request that moved XNO is delivered. -/
theorem lock_exact_iff (amount : Option Int) (accountPub : Bytes) (ledger : Ledger) :
    let run := (lock N n fates amount accountPub).run { state := ledger }
    ExactLock N n amount accountPub run.1 (run.2.trace.map Prod.fst) ↔
      ∀ entry ∈ run.2.trace, entry.2 = true :=
  exactLock_iff_of_sends N n (lock_runs rfl).met

/-! ## A lost response -/

/-- A Nano whose hash keeps the balance and half of the link, and whose keys all sign. -/
def toyNano : Nano Unit where
  blake2b256 bytes := (bytes.drop 128 ++ List.replicate 32 0).take 32
  blake2b256_length bytes := by
    rw [List.length_take, List.length_append, List.length_replicate]
    exact Nat.min_eq_left (Nat.le_add_left 32 _)
  blake2b40 bytes := (bytes ++ List.replicate 5 0).take 5
  blake2b40_length bytes := by
    rw [List.length_take, List.length_append, List.length_replicate]
    exact Nat.min_eq_left (Nat.le_add_left 5 _)
  pubOf _ := List.replicate 32 7
  nanoSign _ _ := []
  nanoVerify _ _ _ := true
  work _ _ := [1]
  workMeets _ _ := true
  walletHolds _ _ := true

/-- A ledger with one account of 10 raw. -/
def toyLedger : Ledger where
  accounts := (∅ : OrdMap Bytes Account).insert (List.replicate 32 7)
    ⟨List.replicate 32 9, nanoAddress toyNano.blake2b40 (List.replicate 32 5), 10⟩

/-- The answer of one attempt is lost. -/
def loseResponse (lost attempt : Nat) : Fate := if attempt = lost then .responseLost else .delivered

/-- A client that sends from a node's wallet. -/
def walletRPC : NanoRPC Unit where
  url := "http://localhost:7076"
  workURL := "http://localhost:7076"
  walletID := ascii "wallet"
  source := nanoAddress toyNano.blake2b40 (List.replicate 32 7)

/-- A client that signs with its own key. -/
def keyRPC : NanoRPC Unit where
  url := "http://localhost:7076"
  workURL := "http://localhost:7076"
  fundSecret := some ()

/-- When the first response is lost, the node wallet pays twice; when the response to the send
block is lost, the lock with the key fails after it has paid. -/
theorem lost_response_not_exact :
    ¬ (∀ (Scalar : Type) (N : Nano Scalar) (n : NanoRPC Scalar) (fates : Nat → Fate)
        (amount : Option Int) (accountPub : Bytes) (ledger : Ledger), n.walletID ≠ [] →
      let run := (lock N n fates amount accountPub).run { state := ledger }
      ExactLock N n amount accountPub run.1 (run.2.trace.map Prod.fst)) ∧
    ¬ (∀ (Scalar : Type) (N : Nano Scalar) (n : NanoRPC Scalar) (fates : Nat → Fate)
        (amount : Option Int) (accountPub : Bytes) (ledger : Ledger), n.walletID = [] →
      let run := (lock N n fates amount accountPub).run { state := ledger }
      ExactLock N n amount accountPub run.1 (run.2.trace.map Prod.fst)) := by
  constructor
  · intro claimed
    have once := (claimed Unit toyNano walletRPC (loseResponse 0) (some 3) (List.replicate 32 8)
      toyLedger (by decide)).atMostOnce
    revert once
    decide
  · intro claimed
    have failed := (claimed Unit toyNano keyRPC (loseResponse 2) (some 3) (List.replicate 32 8)
      toyLedger rfl).failed "swapd: lock send: swapd: nano rpc error: Old block"
    revert failed
    decide

end Obscura.Swapd
