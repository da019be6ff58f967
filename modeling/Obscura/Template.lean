import Obscura.Revalidate

/-! # Block templates

The transactions that `Select` returns passed validation one by one. A block of them must
also pass the rules that look at several transactions at once. The keys that validation
records are marks of a few kinds; two transactions fit into one block when they share no
mark and no output key. The conflict keys of the mempool keep spends of one kind apart
and leave the rest to chance (`Compatible`).
-/

namespace Obscura

open Wire Tx Checked

/-! ## Marks -/

/-- The kinds of keys that validation records in `seenSpent`. -/
inductive Kind where
  | coin
  | swapIn
  | vaultIn
  | nonce
  | swapOut
  | vaultOut
  | note
deriving DecidableEq

/-- What stands in front of the key. -/
def Kind.label : Kind → Bytes
  | coin => []
  | swapIn => ascii "swap:"
  | vaultIn => ascii "vaultin:"
  | nonce => ascii "swapnonce:"
  | swapOut => ascii "swapout:"
  | vaultOut => ascii "vaultout:"
  | note => ascii "zk:"

/-- What a transaction takes, so that no other in the block may take it. -/
structure Mark where
  kind : Kind
  key : Bytes
deriving DecidableEq

/-- The mark as it stands in the set. -/
def Mark.render (mark : Mark) : Bytes := mark.kind.label ++ hexstr mark.key

/-- Digits are no colons. -/
theorem colon_not_mem_hexstr (bytes : Bytes) : 58 ∉ hexstr bytes := by
  have digits : ∀ nibble : Fin 256, hexDigit (UInt8.ofFin nibble >>> 4) ≠ 58 ∧
      hexDigit (UInt8.ofFin nibble &&& 15) ≠ 58 := by
    decide +kernel
  intro member
  rw [hexstr, List.mem_flatMap] at member
  obtain ⟨byte, _, member⟩ := member
  simp only [List.mem_cons, List.not_mem_nil, or_false] at member
  obtain ⟨high, low⟩ := digits byte.toFin
  rcases member with same | same
  · exact high same.symm
  · exact low same.symm

/-- A string is split at its first colon. -/
theorem split_at_colon {first second rest rest' : Bytes} (plain : 58 ∉ first) (plain' : 58 ∉ second)
    (same : first ++ 58 :: rest = second ++ 58 :: rest') : first = second ∧ rest = rest' := by
  induction first generalizing second with
  | nil =>
    cases second with
    | nil => exact ⟨rfl, (List.cons.inj same).2⟩
    | cons byte second =>
      have head := (List.cons.inj same).1
      exact absurd (head ▸ List.mem_cons_self) plain'
  | cons byte first ih =>
    cases second with
    | nil =>
      have head := (List.cons.inj same).1
      exact absurd (head ▸ List.mem_cons_self) plain
    | cons byte' second =>
      obtain ⟨rfl, tails⟩ := List.cons.inj same
      rw [List.mem_cons, not_or] at plain plain'
      obtain ⟨rfl, rest⟩ := ih plain.2 plain'.2 tails
      exact ⟨rfl, rest⟩

theorem Kind.label_spec (kind : Kind) :
    kind = coin ∨ ∃ name, 58 ∉ name ∧ kind.label = name ++ [58] := by
  cases kind with
  | coin => exact Or.inl rfl
  | swapIn => exact Or.inr ⟨ascii "swap", by decide, rfl⟩
  | vaultIn => exact Or.inr ⟨ascii "vaultin", by decide, rfl⟩
  | nonce => exact Or.inr ⟨ascii "swapnonce", by decide, rfl⟩
  | swapOut => exact Or.inr ⟨ascii "swapout", by decide, rfl⟩
  | vaultOut => exact Or.inr ⟨ascii "vaultout", by decide, rfl⟩
  | note => exact Or.inr ⟨ascii "zk", by decide, rfl⟩

theorem Kind.label_injective : Function.Injective label := by
  intro first second same
  cases first <;> cases second <;> first | rfl | exact absurd same (by decide)

/-- Different marks are written differently. -/
theorem Mark.render_injective : Function.Injective render := by
  rintro ⟨kind, key⟩ ⟨kind', key'⟩ same
  change kind.label ++ hexstr key = kind'.label ++ hexstr key' at same
  rcases kind.label_spec with rfl | ⟨name, plain, label⟩ <;>
    rcases kind'.label_spec with rfl | ⟨name', plain', label'⟩
  · rw [hexstr_injective (List.append_cancel_left same)]
  · rw [label'] at same
    refine absurd ?_ (colon_not_mem_hexstr key)
    change 58 ∈ Kind.coin.label ++ hexstr key
    rw [same]
    exact List.mem_append_left _ (List.mem_append_right _ List.mem_cons_self)
  · rw [label] at same
    refine absurd ?_ (colon_not_mem_hexstr key')
    change 58 ∈ Kind.coin.label ++ hexstr key'
    rw [← same]
    exact List.mem_append_left _ (List.mem_append_right _ List.mem_cons_self)
  · rw [label, label', List.append_assoc, List.append_assoc] at same
    obtain ⟨rfl, keys⟩ := split_at_colon plain plain' same
    rw [Kind.label_injective (label.trans label'.symm), hexstr_injective keys]

/-- The marks of a transaction. -/
def txMarks (V : Primitives) (t : Transaction) : List Mark :=
  t.inputs.flatMap (fun input =>
      [⟨.coin, recordedTag V input.keyImage⟩, ⟨.coin, input.outputRef⟩]) ++
    t.anonInputs.flatMap (fun input => [⟨.coin, recordedTag V input.tag⟩]) ++
    t.swapInputs.flatMap (fun input => [⟨.swapIn, input.swapKey⟩]) ++
    t.vaultInputs.flatMap (fun input => [⟨.vaultIn, input.vaultKey⟩]) ++
    t.swapOutputs.flatMap (fun so => [⟨.nonce, so.claimR⟩, ⟨.swapOut, so.swapKey⟩]) ++
    t.vaultOutputs.flatMap (fun vo => [⟨.vaultOut, vo.vaultKey⟩]) ++
    t.zkInputs.flatMap (fun input => [⟨.note, input.nullifier⟩]) ++
    t.czkSpends.flatMap fun s => [⟨.note, s.nullifier⟩]

/-! ## A transaction behind others -/

/-- The second set holds what the first one does, and the given keys. -/
def Beside (before seen seen' : List Bytes) : Prop :=
  ∀ key, key ∈ seen' ↔ key ∈ seen ∨ key ∈ before

namespace Beside

variable {before seen seen' : List Bytes}

theorem refl (before : List Bytes) : Beside before [] before := by
  intro key
  simp

theorem cons (beside : Beside before seen seen') (key : Bytes) :
    Beside before (key :: seen) (key :: seen') := by
  intro other
  rw [List.mem_cons, List.mem_cons, beside, or_assoc]

theorem unseen (beside : Beside before seen seen') {key : Bytes} :
    key ∉ seen' ↔ key ∉ seen ∧ key ∉ before := by
  rw [beside, not_or]

end Beside

/-- The same for the states of a loop that also carries a sum. -/
def BesideSum (before : List Bytes) (state state' : List Bytes × UInt64) : Prop :=
  Beside before state.1 state'.1 ∧ state.2 = state'.2

/-- Beside the keys, the sums agree. -/
theorem BesideSum.next {before : List Bytes} {state state' result other : List Bytes × UInt64}
    (beside : BesideSum before state state') (keys : List Bytes) {amount : Nat}
    (first : result.1 = keys ++ state.1) (second : other.1 = keys ++ state'.1)
    (firstSum : result.2.toNat = state.2.toNat + amount)
    (secondSum : other.2.toNat = state'.2.toNat + amount) : BesideSum before result other := by
  constructor
  · intro key
    rw [first, second, List.mem_append, List.mem_append, beside.1, or_assoc]
  · rw [← UInt64.toNat_inj, firstSum, secondSum, beside.2]

section Items

variable {V : Primitives} {L : Ledger} {height : Nat} {ctx : Hash} {before : List Bytes}

/-- An input is accepted beside other keys unless it meets one of them. -/
theorem checkInput_mirrors {seen seen' : List Bytes} (beside : Beside before seen seen')
    (input : Input) :
    Mirrors (Beside before) (checkInput V L true height ctx seen input)
      (checkInput V L true height ctx seen' input)
      (∀ mark ∈ [Mark.mk .coin (recordedTag V input.keyImage), ⟨.coin, input.outputRef⟩],
        mark.render ∉ before) := by
  intro result passed
  obtain ⟨lengths, unseen, entry, found, mature, unlocked, proofs, nullifier, canonical,
    unseenImage, untagged, rfl⟩ := checkInput_ok.mp passed
  rw [recordedTag_of_canonical canonical]
  simp only [List.forall_mem_cons, List.not_mem_nil, false_implies, implies_true, and_true]
  constructor
  · rintro ⟨image, ref⟩
    exact ⟨_, checkInput_ok.mpr ⟨lengths, beside.unseen.mpr ⟨unseen, ref⟩, entry, found, mature,
      unlocked, proofs, nullifier, canonical, beside.unseen.mpr ⟨unseenImage, image⟩, untagged,
      rfl⟩⟩
  · intro other again
    obtain ⟨_, ref, _, _, _, _, _, nullifier', canonical', image, _, rfl⟩ :=
      checkInput_ok.mp again
    obtain rfl := Option.some.inj (canonical.symm.trans canonical')
    exact ⟨⟨(beside.unseen.mp image).2, (beside.unseen.mp ref).2⟩, (beside.cons _).cons _⟩

/-- So is an anonymous input. -/
theorem checkAnonInput_mirrors {seen seen' : List Bytes} (beside : Beside before seen seen')
    (input : AnonInput) :
    Mirrors (Beside before) (checkAnonInput V L true height ctx seen input)
      (checkAnonInput V L true height ctx seen' input)
      (∀ mark ∈ [Mark.mk .coin (recordedTag V input.tag)], mark.render ∉ before) := by
  intro result passed
  obtain ⟨lengths, nullifier, canonical, unseen, untagged, ring, members, size, proofs, rfl⟩ :=
    checkAnonInput_ok.mp passed
  rw [recordedTag_of_canonical canonical, List.forall_mem_singleton]
  constructor
  · intro image
    exact ⟨_, checkAnonInput_ok.mpr ⟨lengths, nullifier, canonical,
      beside.unseen.mpr ⟨unseen, image⟩, untagged, ring, members, size, proofs, rfl⟩⟩
  · intro other again
    obtain ⟨_, nullifier', canonical', image, _, _, _, _, _, rfl⟩ := checkAnonInput_ok.mp again
    obtain rfl := Option.some.inj (canonical.symm.trans canonical')
    exact ⟨(beside.unseen.mp image).2, beside.cons _⟩

/-- So is a swap input. -/
theorem checkSwapInput_mirrors {state state' : List Bytes × UInt64}
    (beside : BesideSum before state state') (input : SwapIn) :
    Mirrors (BesideSum before) (checkSwapInput V L true height ctx state input)
      (checkSwapInput V L true height ctx state' input)
      (∀ mark ∈ [Mark.mk .swapIn input.swapKey], mark.render ∉ before) := by
  intro result passed
  obtain ⟨length, unseen, sw, found, sig, parsed, window, proofs, keys, sum⟩ :=
    checkSwapInput_ok.mp passed
  rw [List.forall_mem_singleton]
  constructor
  · intro apart
    refine ⟨(_, result.2), checkSwapInput_ok.mpr ⟨length, beside.1.unseen.mpr ⟨unseen, apart⟩, sw,
      found, sig, parsed, window, proofs, rfl, ?_⟩⟩
    rw [sum, beside.2]
  · intro other again
    obtain ⟨_, unseen', sw', found', _, _, _, _, keys', sum'⟩ := checkSwapInput_ok.mp again
    obtain rfl := Option.some.inj (found.symm.trans found')
    exact ⟨(beside.1.unseen.mp unseen').2, beside.next [_] keys keys' sum sum'⟩

/-- So is a vault claim. -/
theorem checkVaultInput_mirrors {state state' : List Bytes × UInt64}
    (beside : BesideSum before state state') (input : VaultIn) :
    Mirrors (BesideSum before) (checkVaultInput V L true height ctx state input)
      (checkVaultInput V L true height ctx state' input)
      (∀ mark ∈ [Mark.mk .vaultIn input.vaultKey], mark.render ∉ before) := by
  intro result passed
  obtain ⟨length, unseen, v, found, mature, sig, parsed, proofs, entitled, keys, sum⟩ :=
    checkVaultInput_ok.mp passed
  rw [List.forall_mem_singleton]
  constructor
  · intro apart
    refine ⟨(_, result.2), checkVaultInput_ok.mpr ⟨length, beside.1.unseen.mpr ⟨unseen, apart⟩, v,
      found, mature, sig, parsed, proofs, entitled, rfl, ?_⟩⟩
    rw [sum, beside.2]
  · intro other again
    obtain ⟨_, unseen', v', found', _, _, _, _, _, keys', sum'⟩ := checkVaultInput_ok.mp again
    obtain rfl := Option.some.inj (found.symm.trans found')
    rw [Nat.add_assoc] at sum sum'
    exact ⟨(beside.1.unseen.mp unseen').2, beside.next [_] keys keys' sum sum'⟩

/-- So is a swap output. -/
theorem checkSwapOutput_mirrors {state state' : List Bytes × UInt64}
    (beside : BesideSum before state state') (so : SwapOut) :
    Mirrors (BesideSum before) (checkSwapOutput V L true height state so)
      (checkSwapOutput V L true height state' so)
      (∀ mark ∈ [Mark.mk .nonce so.claimR, ⟨.swapOut, so.swapKey⟩], mark.render ∉ before) := by
  intro result passed
  obtain ⟨lengths, keysOk, ⟨unseen, unregistered⟩, nonceUnseen, unused, amount, window, keys, sum⟩ :=
    checkSwapOutput_ok.mp passed
  simp only [List.forall_mem_cons, List.not_mem_nil, false_implies, implies_true, and_true]
  constructor
  · rintro ⟨nonce, apart⟩
    refine ⟨(_, result.2), checkSwapOutput_ok.mpr ⟨lengths, keysOk,
      ⟨beside.1.unseen.mpr ⟨unseen, apart⟩, unregistered⟩,
      beside.1.unseen.mpr ⟨nonceUnseen, nonce⟩, unused, amount, window, rfl, ?_⟩⟩
    rw [sum, beside.2]
  · intro other again
    obtain ⟨_, _, ⟨unseen', _⟩, nonceUnseen', _, _, _, keys', sum'⟩ := checkSwapOutput_ok.mp again
    exact ⟨⟨(beside.1.unseen.mp nonceUnseen').2, (beside.1.unseen.mp unseen').2⟩,
      beside.next [_, _] keys keys' sum sum'⟩

/-- So is a vault output. -/
theorem checkVaultOutput_mirrors {state state' : List Bytes × UInt64}
    (beside : BesideSum before state state') (vo : VaultOut) :
    Mirrors (BesideSum before) (checkVaultOutput V L state vo) (checkVaultOutput V L state' vo)
      (∀ mark ∈ [Mark.mk .vaultOut vo.vaultKey], mark.render ∉ before) := by
  intro result passed
  obtain ⟨lengths, rate, amount, ⟨unseen, unregistered⟩, owner, keys, sum⟩ :=
    checkVaultOutput_ok.mp passed
  rw [List.forall_mem_singleton]
  constructor
  · intro apart
    refine ⟨(_, result.2), checkVaultOutput_ok.mpr ⟨lengths, rate, amount,
      ⟨beside.1.unseen.mpr ⟨unseen, apart⟩, unregistered⟩, owner, rfl, ?_⟩⟩
    rw [sum, beside.2]
  · intro other again
    obtain ⟨_, _, _, ⟨unseen', _⟩, _, keys', sum'⟩ := checkVaultOutput_ok.mp again
    exact ⟨(beside.1.unseen.mp unseen').2, beside.next [_] keys keys' sum sum'⟩

/-- So is a nullifier spend. -/
theorem checkZKInput_mirrors {state state' : List Bytes × UInt64}
    (beside : BesideSum before state state') (input : ZKInput) :
    Mirrors (BesideSum before) (checkZKInput V L true ctx state input)
      (checkZKInput V L true ctx state' input)
      (∀ mark ∈ [Mark.mk .note input.nullifier], mark.render ∉ before) := by
  intro result passed
  obtain ⟨nfParsed, anchorParsed, amount, unseen, unspent, anchored, proof, keys, sum⟩ :=
    checkZKInput_ok.mp passed
  rw [List.forall_mem_singleton]
  constructor
  · intro apart
    refine ⟨(_, result.2), checkZKInput_ok.mpr ⟨nfParsed, anchorParsed, amount,
      beside.1.unseen.mpr ⟨unseen, apart⟩, unspent, anchored, proof, rfl, ?_⟩⟩
    rw [sum, beside.2]
  · intro other again
    obtain ⟨_, _, _, unseen', _, _, _, keys', sum'⟩ := checkZKInput_ok.mp again
    exact ⟨(beside.1.unseen.mp unseen').2, beside.next [_] keys keys' sum sum'⟩

/-- So is a confidential spend. -/
theorem checkCZKSpend_mirrors {state state' : List Bytes × UInt64}
    (beside : BesideSum before state state') (s : CZKSpend) :
    Mirrors (BesideSum before) (checkCZKSpend V L true ctx state s)
      (checkCZKSpend V L true ctx state' s)
      (∀ mark ∈ [Mark.mk .note s.nullifier], mark.render ∉ before) := by
  intro result passed
  obtain ⟨nfParsed, anchorParsed, leafParsed, fee, unseen, unspent, anchored, proof, keys, sum⟩ :=
    checkCZKSpend_ok.mp passed
  rw [List.forall_mem_singleton]
  constructor
  · intro apart
    refine ⟨(_, result.2), checkCZKSpend_ok.mpr ⟨nfParsed, anchorParsed, leafParsed, fee,
      beside.1.unseen.mpr ⟨unseen, apart⟩, unspent, anchored, proof, rfl, ?_⟩⟩
    rw [sum, beside.2]
  · intro other again
    obtain ⟨_, _, _, _, unseen', _, _, _, keys', sum'⟩ := checkCZKSpend_ok.mp again
    exact ⟨(beside.1.unseen.mp unseen').2, beside.next [_] keys keys' sum sum'⟩

/-- So is an output. -/
theorem checkOutput_mirrors {seen seen' : List Bytes} (beside : Beside before seen seen')
    (o : Output) :
    Mirrors (fun result result' : Bytes × List Bytes =>
        result.1 = result'.1 ∧ Beside before result.2 result'.2)
      (checkOutput V L true seen o) (checkOutput V L true seen' o)
      (∀ key ∈ outputKeys V o, key ∉ before) := by
  intro result passed
  obtain ⟨lengths, point, range, pb, prime, unseen, keyUnseen, unknown, unused, rfl⟩ :=
    checkOutput_ok.mp passed
  have keys : outputKeys V o = [hexstr pb, ascii "key:" ++ hexstr o.oneTimeKey] := by
    rw [outputKeys, prime]
    rfl
  rw [keys]
  simp only [List.forall_mem_cons, List.not_mem_nil, false_implies, implies_true, and_true]
  constructor
  · rintro ⟨primeApart, keyApart⟩
    exact ⟨_, checkOutput_ok.mpr ⟨lengths, point, range, pb, prime,
      beside.unseen.mpr ⟨unseen, primeApart⟩, beside.unseen.mpr ⟨keyUnseen, keyApart⟩, unknown,
      unused, rfl⟩⟩
  · intro other again
    obtain ⟨_, _, _, pb', prime', unseen', keyUnseen', _, _, rfl⟩ := checkOutput_ok.mp again
    obtain rfl := Option.some.inj (prime.symm.trans prime')
    exact ⟨⟨(beside.unseen.mp unseen').2, (beside.unseen.mp keyUnseen').2⟩, rfl,
      (beside.cons _).cons _⟩

/-- So are the outputs. -/
theorem checkOutputs_mirrors (outs : List Output) :
    Mirrors (fun result result' : List Bytes × List Bytes =>
        result.1 = result'.1 ∧ Beside before result.2 result'.2)
      (checkOutputs V L true [] outs) (checkOutputs V L true before outs)
      (∀ o ∈ outs, ∀ key ∈ outputKeys V o, key ∉ before) := by
  refine Mirrors.foldlM ?_ ⟨rfl, Beside.refl before⟩
  rintro ⟨primes, seen⟩ ⟨_, seen'⟩ ⟨rfl, beside⟩ o _
  refine ((checkOutput_mirrors beside o).bind fun first second same => Mirrors.pure ?_).congr
    (and_true _).symm.to_iff
  exact ⟨by rw [same.1], same.2⟩

end Items

/-! ## The legs -/

/-- The sets of both runs, and the primes they return. -/
def BesideSeen (seen : Seen) (result result' : List Bytes × Seen) : Prop :=
  result.1 = result'.1 ∧ Beside seen.spent result.2.spent result'.2.spent ∧
    Beside seen.prime result.2.prime result'.2.prime

/-- The transaction shares nothing with what was recorded before. -/
def AwayFrom (V : Primitives) (seen : Seen) (t : Transaction) : Prop :=
  (∀ mark ∈ txMarks V t, mark.render ∉ seen.spent) ∧
    ∀ o ∈ t.outputs, ∀ key ∈ outputKeys V o, key ∉ seen.prime

theorem forall_mem_flatMap {α β : Type} {items : List α} {marks : α → List β} {p : β → Prop} :
    (∀ mark ∈ items.flatMap marks, p mark) ↔ ∀ item ∈ items, ∀ mark ∈ marks item, p mark := by
  simp only [List.mem_flatMap]
  constructor
  · exact fun all item member mark listed => all mark ⟨item, member, listed⟩
  · rintro all mark ⟨item, member, listed⟩
    exact all item member mark listed

/-- **Mirroring.** A transaction is accepted beside others unless it meets one of their keys. -/
theorem validateLegs_mirrors {V : Primitives} {L : Ledger} {height : Nat} {t : Transaction}
    (seen : Seen) :
    Mirrors (BesideSeen seen) (validateLegs V L true t height ⟨[], []⟩)
      (validateLegs V L true t height seen) (AwayFrom V seen t) := by
  unfold validateLegs validateZKInputsLocked validateCZKSpendsLocked
  dsimp only
  refine Mirrors.congr (Mirrors.bind (Mirrors.foldlM (fun _ _ beside input _ =>
      checkInput_mirrors beside input) (Beside.refl seen.spent)) fun spent spent' beside =>
    Mirrors.bind (Mirrors.foldlM (fun _ _ beside input _ =>
      checkAnonInput_mirrors beside input) beside) fun spent spent' beside =>
    Mirrors.bind (Mirrors.foldlM (fun _ _ beside input _ =>
      checkSwapInput_mirrors beside input) ⟨beside, rfl⟩) fun state state' beside =>
    Mirrors.bind (Mirrors.foldlM (fun _ _ beside input _ =>
      checkVaultInput_mirrors beside input) beside) fun inward inward' inside =>
    Mirrors.bind (Mirrors.foldlM (fun _ _ beside so _ =>
      checkSwapOutput_mirrors beside so) ⟨inside.1, rfl⟩) fun state state' beside =>
    Mirrors.bind (Mirrors.foldlM (fun _ _ beside vo _ =>
      checkVaultOutput_mirrors beside vo) beside) fun outward outward' outside =>
    Mirrors.bind (checkOutputs_mirrors t.outputs) fun primes primes' made =>
    Mirrors.bind (Mirrors.bind (Mirrors.of_eq rfl) fun _ _ _ => Mirrors.foldlM
      (fun _ _ beside input _ => checkZKInput_mirrors beside input) ⟨outside.1, rfl⟩)
      fun notes notes' noted =>
    Mirrors.bind (Mirrors.of_eq (by rw [inside.2, noted.2])) fun publicIn publicIn' inSum =>
    Mirrors.bind (Mirrors.of_eq rfl) fun zkOut zkOut' mints =>
    Mirrors.bind (Mirrors.of_eq (by rw [outside.2, mints])) fun publicOut publicOut' outSum =>
    Mirrors.bind (Mirrors.bind (Mirrors.of_eq rfl) fun _ _ _ => Mirrors.foldlM
      (fun _ _ beside s _ => checkCZKSpend_mirrors beside s) ⟨noted.1, rfl⟩)
      fun spends spends' spent =>
    Mirrors.bind (Mirrors.of_eq (by rw [inSum, spent.2])) fun publicIn publicIn' inSum =>
    Mirrors.bind (Mirrors.of_eq (by rw [inSum, outSum])) fun _ _ _ =>
    Mirrors.pure ⟨made.1, spent.1, made.2⟩) ?_
  simp only [AwayFrom, txMarks, List.forall_mem_append, forall_mem_flatMap]
  constructor
  · rintro ⟨⟨⟨⟨⟨⟨⟨⟨inputs, anons⟩, swapIns⟩, vaultIns⟩, swapOuts⟩, vaultOuts⟩, zkIns⟩, czks⟩, outputs⟩
    exact ⟨inputs, anons, swapIns, vaultIns, swapOuts, vaultOuts, outputs, ⟨trivial, zkIns⟩, trivial,
      trivial, trivial, ⟨trivial, czks⟩, trivial, trivial, trivial⟩
  · rintro ⟨inputs, anons, swapIns, vaultIns, swapOuts, vaultOuts, outputs, ⟨_, zkIns⟩, _, _, _,
      ⟨_, czks⟩, _⟩
    exact ⟨⟨⟨⟨⟨⟨⟨⟨inputs, anons⟩, swapIns⟩, vaultIns⟩, swapOuts⟩, vaultOuts⟩, zkIns⟩, czks⟩, outputs⟩

/-- The rendered marks of a transaction. -/
def markKeys (V : Primitives) (t : Transaction) : List Bytes := (txMarks V t).map Mark.render

/-- The dedup keys of its outputs. -/
def madeKeys (V : Primitives) (t : Transaction) : List Bytes := t.outputs.flatMap (outputKeys V)

/-- The outputs record their keys. -/
theorem checkOutputs_records {V : Primitives} {L : Ledger} {skip : Bool} {outs : List Output}
    {seen next primes : List Bytes}
    (passed : checkOutputs V L skip seen outs = .ok (primes, next)) :
    ∀ key, key ∈ next ↔ key ∈ seen ∨ key ∈ outs.flatMap (outputKeys V) := by
  refine foldlM_records Prod.snd (outputKeys V) ?_ passed
  rintro ⟨primes, seen⟩ o result passed key
  simp only [bind_ok, Prod.exists, pure_ok] at passed
  obtain ⟨pb, seen', checked, rfl⟩ := passed
  obtain ⟨_, _, _, pb', prime, _, _, _, _, same⟩ := checkOutput_ok.mp checked
  obtain ⟨_, rfl⟩ := Prod.mk.inj same
  rw [outputKeys, prime]
  change _ ∈ [_, _] ++ seen ↔ key ∈ seen ∨ key ∈ [_, _]
  rw [List.mem_append, or_comm]

/-- **What validation records.** -/
theorem validateLegs_records {V : Primitives} {L : Ledger} {skip : Bool} {height : Nat}
    {t : Transaction} {seen next : Seen} {primes : List Bytes}
    (accepted : validateLegs V L skip t height seen = .ok (primes, next)) :
    (∀ key, key ∈ next.spent ↔ key ∈ seen.spent ∨ key ∈ markKeys V t) ∧
      ∀ key, key ∈ next.prime ↔ key ∈ seen.prime ∨ key ∈ madeKeys V t := by
  unfold validateLegs validateZKInputsLocked validateCZKSpendsLocked at accepted
  simp only [bind_ok, reject_ok, pure_ok, exists_const, Prod.exists, Prod.mk.injEq] at accepted
  obtain ⟨spent₁, inputs, spent₂, anons, spent₃, _, swapIns, spent₄, _, vaultIns, spent₅, _,
    swapOuts, spent₆, _, vaultOuts, primes', prime', outputs, spent₇, _, ⟨_, zkIns⟩, _, _, _, _, _,
    _, spent₈, _, ⟨_, czks⟩, _, _, _, _, rfl⟩ := accepted
  have summed : ∀ (keys : List Bytes) {state result : List Bytes × UInt64},
      result.1 = keys ++ state.1 → ∀ key, key ∈ result.1 ↔ key ∈ state.1 ∨ key ∈ keys := by
    intro keys state result same key
    rw [same, List.mem_append, or_comm]
  have one := foldlM_records (fun seen => seen) (fun input : Input =>
    [hexstr (recordedTag V input.keyImage), hexstr input.outputRef]) (by
      intro state input result passed key
      obtain ⟨_, _, _, _, _, _, _, nullifier, canonical, _, _, rfl⟩ := checkInput_ok.mp passed
      rw [recordedTag_of_canonical canonical]
      simp only [List.mem_cons, List.not_mem_nil, or_false]
      tauto) inputs
  have two := foldlM_records (fun seen => seen) (fun input : AnonInput =>
    [hexstr (recordedTag V input.tag)]) (by
      intro state input result passed key
      obtain ⟨_, nullifier, canonical, _, _, _, _, _, _, rfl⟩ := checkAnonInput_ok.mp passed
      rw [recordedTag_of_canonical canonical]
      simp only [List.mem_cons, List.not_mem_nil, or_false]
      tauto) anons
  have three := foldlM_records Prod.fst (fun input : SwapIn =>
    [ascii "swap:" ++ hexstr input.swapKey]) (by
      intro state input result passed
      obtain ⟨_, _, _, _, _, _, _, _, keys, _⟩ := checkSwapInput_ok.mp passed
      exact summed [_] keys) swapIns
  have four := foldlM_records Prod.fst (fun input : VaultIn =>
    [ascii "vaultin:" ++ hexstr input.vaultKey]) (by
      intro state input result passed
      obtain ⟨_, _, _, _, _, _, _, _, _, keys, _⟩ := checkVaultInput_ok.mp passed
      exact summed [_] keys) vaultIns
  have five := foldlM_records Prod.fst (fun so : SwapOut =>
    [ascii "swapnonce:" ++ hexstr so.claimR, ascii "swapout:" ++ hexstr so.swapKey])
    (by
      intro state so result passed
      obtain ⟨_, _, _, _, _, _, _, keys, _⟩ := checkSwapOutput_ok.mp passed
      exact summed [_, _] keys) swapOuts
  have six := foldlM_records Prod.fst (fun vo : VaultOut =>
    [ascii "vaultout:" ++ hexstr vo.vaultKey]) (by
      intro state vo result passed
      obtain ⟨_, _, _, _, _, keys, _⟩ := checkVaultOutput_ok.mp passed
      exact summed [_] keys) vaultOuts
  have seven := foldlM_records Prod.fst (fun input : ZKInput =>
    [ascii "zk:" ++ hexstr input.nullifier]) (by
      intro state input result passed
      obtain ⟨_, _, _, _, _, _, _, keys, _⟩ := checkZKInput_ok.mp passed
      exact summed [_] keys) zkIns
  have eight := foldlM_records Prod.fst (fun s : CZKSpend =>
    [ascii "zk:" ++ hexstr s.nullifier]) (by
      intro state s result passed
      obtain ⟨_, _, _, _, _, _, _, _, keys, _⟩ := checkCZKSpend_ok.mp passed
      exact summed [_] keys) czks
  have made := checkOutputs_records outputs
  refine ⟨fun key => ?_, made⟩
  have marks : key ∈ markKeys V t ↔
      key ∈ t.inputs.flatMap (fun input =>
        [hexstr (recordedTag V input.keyImage), hexstr input.outputRef]) ∨
      key ∈ t.anonInputs.flatMap (fun input => [hexstr (recordedTag V input.tag)]) ∨
      key ∈ t.swapInputs.flatMap (fun input => [ascii "swap:" ++ hexstr input.swapKey]) ∨
      key ∈ t.vaultInputs.flatMap (fun input => [ascii "vaultin:" ++ hexstr input.vaultKey]) ∨
      key ∈ t.swapOutputs.flatMap (fun so =>
        [ascii "swapnonce:" ++ hexstr so.claimR, ascii "swapout:" ++ hexstr so.swapKey]) ∨
      key ∈ t.vaultOutputs.flatMap (fun vo => [ascii "vaultout:" ++ hexstr vo.vaultKey]) ∨
      key ∈ t.zkInputs.flatMap (fun input => [ascii "zk:" ++ hexstr input.nullifier]) ∨
      key ∈ t.czkSpends.flatMap (fun s => [ascii "zk:" ++ hexstr s.nullifier]) := by
    simp only [markKeys, txMarks, List.map_append, List.map_flatMap, List.mem_append, or_assoc]
    rfl
  rw [marks]
  change key ∈ spent₈ ↔ _
  rw [eight key, seven key, six key, five key, four key, three key, two key, one key]
  simp only [or_assoc]

/-! ## Transactions and blocks -/

/-- Two transactions share no key that validation records. -/
def KeysApart (V : Primitives) (t u : Transaction) : Prop :=
  List.Disjoint (markKeys V t) (markKeys V u) ∧ List.Disjoint (madeKeys V t) (madeKeys V u)

theorem awayFrom_iff {V : Primitives} {seen : Seen} {t : Transaction} :
    AwayFrom V seen t ↔
      List.Disjoint (markKeys V t) seen.spent ∧ List.Disjoint (madeKeys V t) seen.prime := by
  refine and_congr ?_ ?_
  · simp only [markKeys, List.Disjoint, List.mem_map]
    constructor
    · rintro away _ ⟨mark, member, rfl⟩
      exact away mark member
    · exact fun away mark member => away ⟨mark, member, rfl⟩
  · simp only [madeKeys, List.Disjoint, List.mem_flatMap]
    constructor
    · rintro away key ⟨o, member, listed⟩
      exact away o member key listed
    · exact fun away o member key listed => away ⟨o, member, listed⟩

section Tally

variable {V : Primitives} {L : Ledger} (noPQ : L.pqUtxo = ∅)

include noPQ

/-- **A transaction behind others.** One that is valid alone is valid behind the keys of
others exactly when it shares none of them. -/
theorem validateTx_beside {t : Transaction} {height : Nat} {skipped skipped' : Bool}
    (grows : skipped = true → skipped' = true) {result : List Bytes × Seen}
    (passed : validateTxLocked V L skipped t height ⟨[], []⟩ = .ok result) (seen : Seen) :
    (∃ other, validateTxLocked V L skipped' t height seen = .ok other) ↔ AwayFrom V seen t := by
  have split : ∀ {skipped : Bool} {seen : Seen} {result : List Bytes × Seen},
      validateTxLocked V L skipped t height seen = .ok result ↔
        validateTxLocked V L true t height seen = .ok result ∧
          (skipped = false → hasPQ t = false → TxProofs V L height t) := by
    intro skipped seen result
    cases skipped with
    | true => simp
    | false => simpa using validateTx_split V L height t seen result
  obtain ⟨_, classical, _⟩ := validateTx_classical noPQ passed
  obtain ⟨rules, proofs⟩ := split.mp passed
  have again : skipped' = false → hasPQ t = false → TxProofs V L height t := by
    intro unskipped _
    cases skipped with
    | false => exact proofs rfl classical
    | true => exact absurd (grows rfl) (by rw [unskipped]; exact Bool.false_ne_true)
  have mirrors : Mirrors (BesideSeen seen) (validateTxLocked V L true t height ⟨[], []⟩)
      (validateTxLocked V L true t height seen) (AwayFrom V seen t) := by
    unfold validateTxLocked
    rw [classical]
    refine (Mirrors.bind (Mirrors.of_eq rfl) fun _ _ _ => Mirrors.bind
      (Mirrors.of_eq (rfl : checkShape t = checkShape t)) fun _ _ _ =>
        validateLegs_mirrors seen).congr ?_
    simp only [true_and]
  rw [← mirrors.passes rules]
  exact exists_congr fun other => split.trans (and_iff_left again)

/-- A transaction records its keys. -/
theorem validateTx_records {t : Transaction} {height : Nat} {skip : Bool} {seen next : Seen}
    {primes : List Bytes} (accepted : validateTxLocked V L skip t height seen = .ok (primes, next)) :
    (∀ key, key ∈ next.spent ↔ key ∈ seen.spent ∨ key ∈ markKeys V t) ∧
      ∀ key, key ∈ next.prime ↔ key ∈ seen.prime ∨ key ∈ madeKeys V t := by
  obtain ⟨_, classical, _⟩ := validateTx_classical noPQ accepted
  unfold validateTxLocked at accepted
  rw [classical] at accepted
  simp only [bind_ok, reject_ok, exists_const, Bool.false_eq_true, ↓reduceIte] at accepted
  obtain ⟨_, _, _, legs⟩ := accepted
  exact validateLegs_records legs

omit noPQ in
/-- What a transaction adds to the tally. -/
theorem tallyTx_ok {skip : Transaction → Bool} {b : Block} {tally next : TxTally}
    {t : Transaction} (classical : hasPQ t = false) :
    tallyTx V skip L b tally t = .ok next ↔
      ∃ primes seen, validateTxLocked V L (skip t) t b.header.height tally.seen =
          .ok (primes, seen) ∧
        next.primes = tally.primes ++ primes ∧ next.seen = seen ∧
        next.fees.toNat = tally.fees.toNat + t.fee.toNat := by
  unfold tallyTx
  simp only [bind_ok, mapError_ok, Prod.exists, classical, Bool.false_eq_true, ↓reduceIte,
    addU64_ok, pure_ok]
  constructor
  · rintro ⟨primes, seen, valid, fees, sum, rfl⟩
    exact ⟨primes, seen, valid, rfl, rfl, sum⟩
  · rintro ⟨primes, seen, valid, same, rfl, sum⟩
    obtain ⟨primes', seen, fees⟩ := next
    exact ⟨primes, seen, valid, fees, sum, by rw [← same]⟩

/-- **The transactions of a block.** Those that are valid one by one are valid together
exactly when no two share a key, none shares one with what was there before, and their
fees fit a word. -/
theorem tally_iff {skip skip' : Transaction → Bool} {b : Block} {txs : List Transaction}
    (grows : ∀ t ∈ txs, skip t = true → skip' t = true)
    (each : ∀ t ∈ txs, ∃ result, validateTxLocked V L (skip t) t b.header.height ⟨[], []⟩ =
      .ok result) (tally : TxTally) :
    (∃ final, txs.foldlM (tallyTx V skip' L b) tally = .ok final) ↔
      (∀ t ∈ txs, AwayFrom V tally.seen t) ∧ txs.Pairwise (KeysApart V) ∧
        tally.fees.toNat + (txs.map fun t => t.fee.toNat).sum < 2 ^ 64 := by
  induction txs generalizing tally with
  | nil =>
    have fits := tally.fees.toNat_lt
    simp only [List.foldlM_nil, pure_ok, exists_eq', List.not_mem_nil, false_implies,
      implies_true, List.Pairwise.nil, List.map_nil, List.sum_nil, true_and, true_iff]
    omega
  | cons t txs ih =>
    obtain ⟨⟨primes₀, seen₀⟩, alone⟩ := each t List.mem_cons_self
    obtain ⟨_, classical, _⟩ := validateTx_classical noPQ alone
    have behind := validateTx_beside noPQ (grows t List.mem_cons_self) alone tally.seen
    have rest := ih (fun u member => grows u (List.mem_cons_of_mem _ member))
      (fun u member => each u (List.mem_cons_of_mem _ member))
    -- What the rest finds recorded is what was there and the keys of `t`.
    have away : ∀ {primes : List Bytes} {seen : Seen},
        validateTxLocked V L (skip' t) t b.header.height tally.seen = .ok (primes, seen) →
        ∀ u, AwayFrom V seen u ↔ AwayFrom V tally.seen u ∧ KeysApart V t u := by
      intro primes seen valid u
      obtain ⟨spent, prime⟩ := validateTx_records noPQ valid
      rw [awayFrom_iff, awayFrom_iff]
      simp only [List.Disjoint, KeysApart, spent, prime]
      constructor
      · rintro ⟨marks, made⟩
        exact ⟨⟨fun key here old => marks here (Or.inl old), fun key here old => made here
          (Or.inl old)⟩, fun key first here => marks here (Or.inr first),
          fun key first here => made here (Or.inr first)⟩
      · rintro ⟨⟨marks, made⟩, marks', made'⟩
        exact ⟨fun key here => Or.rec (marks here) fun first => marks' first here,
          fun key here => Or.rec (made here) fun first => made' first here⟩
    simp only [List.foldlM_cons, bind_ok, List.forall_mem_cons, List.pairwise_cons, List.map_cons,
      List.sum_cons]
    constructor
    · rintro ⟨final, next, first, run⟩
      obtain ⟨primes, seen, valid, _, rfl, fees⟩ := (tallyTx_ok classical).mp first
      obtain ⟨unseen, apart, sum⟩ := (rest next).mp ⟨final, run⟩
      have both := fun u member => (away valid u).mp (unseen u member)
      refine ⟨⟨behind.mp ⟨_, valid⟩, fun u member => (both u member).1⟩,
        ⟨fun u member => (both u member).2, apart⟩, ?_⟩
      rw [fees] at sum
      omega
    · rintro ⟨⟨unseen, others⟩, ⟨apart, pairwise⟩, sum⟩
      obtain ⟨⟨primes, seen⟩, valid⟩ := behind.mpr unseen
      have fits : tally.fees.toNat + t.fee.toNat < 2 ^ 64 := by omega
      have fees : (tally.fees + t.fee).toNat = tally.fees.toNat + t.fee.toNat := by
        rw [UInt64.toNat_add, Nat.mod_eq_of_lt fits]
      have first : tallyTx V skip' L b tally t =
          .ok ⟨tally.primes ++ primes, seen, tally.fees + t.fee⟩ :=
        (tallyTx_ok classical).mpr ⟨primes, seen, valid, rfl, rfl, fees⟩
      obtain ⟨final, run⟩ := (rest ⟨tally.primes ++ primes, seen, tally.fees + t.fee⟩).mpr
        ⟨fun u member => (away valid u).mpr ⟨others u member, apart u member⟩, pairwise,
          by dsimp only; rw [fees]; omega⟩
      exact ⟨final, _, first, run⟩

theorem validateTx_vaults {t : Transaction} {height : Nat} {skip : Bool} {seen : Seen}
    {result : List Bytes × Seen}
    (accepted : validateTxLocked V L skip t height seen = .ok result) :
    ∀ input ∈ t.vaultInputs, ∃ v cap, L.vaults[hexstr input.vaultKey]? = some v ∧
      vaultYieldAt v height = some cap := by
  obtain ⟨_, classical, _⟩ := validateTx_classical noPQ accepted
  unfold validateTxLocked validateLegs at accepted
  rw [classical] at accepted
  simp only [bind_ok, reject_ok, exists_const, Bool.false_eq_true, ↓reduceIte, Prod.exists]
    at accepted
  obtain ⟨_, _, _, _, _, _, _, _, _, _, _, _, vaultIns, _⟩ := accepted
  refine foldlM_forall _ ?_ vaultIns
  intro state input next passed
  obtain ⟨_, _, v, found, _, _, _, _, ⟨cap, entitled, _⟩, _⟩ := checkVaultInput_ok.mp passed
  exact ⟨v, cap, found, entitled⟩

end Tally

/-- The rules on the transactions of a block that `validateBlockLocked` runs between the
header and the coinbase economics. -/
def checkBody (V : Primitives) (skip : Transaction → Bool) (L : Ledger) (b : Block) :
    Check TxTally := do
  let cb ← checkTxList V b
  let (primes, prime) ← checkOutputs V L false [] cb.outputs
  checkCoinbaseLegs cb
  let tally ← b.txs.tail.foldlM (tallyTx V skip L b) ⟨primes, ⟨[], prime⟩, 0⟩
  checkVaultYields L b
  pure tally

theorem validateBlock_body {V : Primitives} {skip : Transaction → Bool} {now : Int} {L : Ledger}
    {b : Block} :
    validateBlockLocked V skip now L b = .ok () ↔
      (∃ tip, L.tip? = some tip ∧ checkHeader V now L b tip = .ok ()) ∧
      ∃ cb tally, b.txs.head? = some cb ∧ checkBody V skip L b = .ok tally ∧
        checkCoinbase V L b cb tally.fees = .ok () ∧ merkleRoot V b.txs = b.header.merkleRoot ∧
        validatePoRLocked V L b = .ok () ∧ checkRoots V L b tally.primes = .ok () := by
  unfold validateBlockLocked checkBody
  simp only [bind_ok, orReject_ok, reject_ok, exists_const, pure_ok, Prod.exists, ne_eq, not_not]
  constructor
  · rintro ⟨tip, found, ⟨⟩, header, cb, list, primes, prime, outputs, ⟨⟩, legs, tally, run, ⟨⟩,
      yields, ⟨⟩, coinbase, merkle, ⟨⟩, por, roots⟩
    obtain ⟨_, txs, split⟩ := checkTxList_ok list
    exact ⟨⟨tip, found, header⟩, cb, tally, by rw [split]; rfl, ⟨cb, list, primes, prime, outputs,
      (), legs, tally, run, (), yields, rfl⟩, coinbase, merkle, por, roots⟩
  · rintro ⟨⟨tip, found, header⟩, cb, tally, head, ⟨cb', list, primes, prime, outputs, ⟨⟩, legs, _,
      run, ⟨⟩, yields, rfl⟩, coinbase, merkle, por, roots⟩
    obtain ⟨_, txs, split⟩ := checkTxList_ok list
    rw [split] at head
    obtain rfl := Option.some.inj head
    exact ⟨tip, found, (), header, _, list, primes, prime, outputs, (), legs, _, run, (), yields,
      (), coinbase, merkle, (), por, roots⟩

/-- One coinbase in front and different ids. -/
theorem checkTxList_passes {V : Primitives} {b : Block} {cb : Transaction} {txs : List Transaction}
    (split : b.txs = cb :: txs) (isCoinbase : cb.isCoinbase = true)
    (normal : ∀ t ∈ txs, t.isCoinbase = false)
    (distinct : (b.txs.map fun t => t.hash V).Nodup) : checkTxList V b = .ok cb := by
  have loop : ∀ (entries : List (Transaction × Nat)) (seen : List Hash),
      (∀ entry ∈ entries, 0 < entry.2 → entry.1.isCoinbase = false) →
      (entries.map fun entry => entry.1.hash V).Nodup →
      (∀ entry ∈ entries, entry.1.hash V ∉ seen) →
      ∃ final, entries.foldlM (fun (seenTxid : List Hash) entry => do
        reject (0 < entry.2 ∧ entry.1.isCoinbase) (invalid "multiple coinbases")
        reject (entry.1.hash V ∈ seenTxid) (invalid "duplicate transaction in block")
        pure (entry.1.hash V :: seenTxid)) seen = .ok final := by
    intro entries
    induction entries with
    | nil => exact fun seen _ _ _ => ⟨seen, rfl⟩
    | cons entry entries ih =>
      intro seen ordinary distinct unseen
      rw [List.map_cons, List.nodup_cons] at distinct
      obtain ⟨final, run⟩ := ih (entry.1.hash V :: seen)
        (fun other member => ordinary other (List.mem_cons_of_mem _ member)) distinct.2
        (fun other member => by
          rw [List.mem_cons, not_or]
          refine ⟨fun same => distinct.1 ?_, unseen other (List.mem_cons_of_mem _ member)⟩
          exact List.mem_map.mpr ⟨other, member, same⟩)
      refine ⟨final, bind_ok.mpr ⟨entry.1.hash V :: seen, ?_, run⟩⟩
      simp only [bind_ok, reject_ok, exists_const, pure_ok, not_and, Bool.not_eq_true, and_true]
      exact ⟨ordinary entry List.mem_cons_self, unseen entry List.mem_cons_self⟩
  obtain ⟨final, run⟩ := loop b.txs.zipIdx [] (by
      rw [split, List.zipIdx_cons]
      rintro ⟨t, i⟩ member positive
      rcases List.mem_cons.mp member with same | member
      · rw [(Prod.mk.inj same).2] at positive
        exact absurd positive (Nat.lt_irrefl 0)
      · exact normal t (List.fst_mem_of_mem_zipIdx member))
    (by
      rw [← List.zipIdx_map_fst 0 b.txs, List.map_map] at distinct
      exact distinct) fun _ _ => List.not_mem_nil
  have head : b.txs.head? = some cb := by
    rw [split]
    rfl
  unfold checkTxList
  simp only [bind_ok, orReject_ok, reject_ok, exists_const, pure_ok]
  exact ⟨cb, head, by simp [isCoinbase], final, run, rfl⟩

/-- The yields of the claims, when every claimed vault pays one. -/
theorem checkVaultYields_iff {L : Ledger} {b : Block}
    (vaults : ∀ input ∈ b.txs.flatMap Transaction.vaultInputs,
      ∃ v cap, L.vaults[hexstr input.vaultKey]? = some v ∧
        vaultYieldAt v b.header.height = some cap) :
    checkVaultYields L b = .ok () ↔
      ((b.txs.flatMap Transaction.vaultInputs).map fun input => input.yield.toNat).sum ≤
        L.incentivePool.toNat := by
  refine ⟨checkVaultYields_ok, fun covered => ?_⟩
  have bound := L.incentivePool.toNat_lt
  have loop : ∀ (inputs : List VaultIn) (start : UInt64),
      (∀ input ∈ inputs, ∃ v cap, L.vaults[hexstr input.vaultKey]? = some v ∧
        vaultYieldAt v b.header.height = some cap) →
      start.toNat + (inputs.map fun input => input.yield.toNat).sum ≤ L.incentivePool.toNat →
      ∃ total : UInt64, inputs.foldlM (fun (total : UInt64) input => do
        let v ← orReject L.vaults[hexstr input.vaultKey]?
          (invalid "vault claim references unknown vault")
        let _ ← orReject (vaultYieldAt v b.header.height) (invalid "vault yield computation overflow")
        addU64 total input.yield "vault yield sum overflow") start = .ok total ∧
      total.toNat ≤ L.incentivePool.toNat := by
    intro inputs
    induction inputs with
    | nil => exact fun start _ small => ⟨start, rfl, by simpa using small⟩
    | cons input inputs ih =>
      intro start vaults small
      rw [List.map_cons, List.sum_cons] at small
      obtain ⟨v, cap, found, entitled⟩ := vaults input List.mem_cons_self
      have sum : (start + input.yield).toNat = start.toNat + input.yield.toNat := by
        rw [UInt64.toNat_add, Nat.mod_eq_of_lt (by omega)]
      obtain ⟨total, run, within⟩ := ih (start + input.yield)
        (fun other member => vaults other (List.mem_cons_of_mem _ member))
        (by rw [sum]; omega)
      refine ⟨total, bind_ok.mpr ⟨start + input.yield, ?_, run⟩, within⟩
      simp only [bind_ok, orReject_ok, addU64_ok]
      exact ⟨v, found, cap, entitled, sum⟩
  obtain ⟨total, run, within⟩ := loop _ 0 vaults (by simpa using covered)
  unfold checkVaultYields
  refine bind_ok.mpr ⟨total, run, reject_ok.mpr ?_⟩
  rw [UInt64.not_lt, UInt64.le_iff_toNat_le]
  exact within

/-! ## Kinds of keys -/

/-- The key images and tags of a transaction, as they are recorded. -/
def imagesOf (V : Primitives) (t : Transaction) : List Bytes :=
  t.inputs.map (fun input => recordedTag V input.keyImage) ++
    t.anonInputs.map fun input => recordedTag V input.tag

/-- The outputs that a transaction spends. -/
def refsOf (t : Transaction) : List Bytes := t.inputs.map Input.outputRef

/-- The keys of one kind. -/
def kindKeys (V : Primitives) (t : Transaction) : Kind → List Bytes
  | .coin => refsOf t ++ imagesOf V t
  | .swapIn => t.swapInputs.map SwapIn.swapKey
  | .vaultIn => t.vaultInputs.map VaultIn.vaultKey
  | .nonce => t.swapOutputs.map SwapOut.claimR
  | .swapOut => t.swapOutputs.map SwapOut.swapKey
  | .vaultOut => t.vaultOutputs.map VaultOut.vaultKey
  | .note => t.zkInputs.map ZKInput.nullifier ++ t.czkSpends.map CZKSpend.nullifier

section Kinds

variable {V : Primitives} {t u : Transaction}

/-- The marks of a transaction, by kind. -/
theorem mem_txMarks (mark : Mark) : mark ∈ txMarks V t ↔ mark.key ∈ kindKeys V t mark.kind := by
  obtain ⟨kind, key⟩ := mark
  cases kind <;>
    simp only [txMarks, kindKeys, refsOf, imagesOf, List.mem_append, List.mem_flatMap, List.mem_map,
      List.mem_cons, List.not_mem_nil, or_false, Mark.mk.injEq, reduceCtorEq, false_and, and_false,
      exists_false, true_and, false_or, eq_comm (a := key)]
  -- An input leaves two marks of this kind.
  constructor
  · rintro (⟨input, member, image | ref⟩ | anon)
    · exact Or.inr (Or.inl ⟨input, member, image⟩)
    · exact Or.inl ⟨input, member, ref⟩
    · exact Or.inr (Or.inr anon)
  · rintro (⟨input, member, ref⟩ | ⟨input, member, image⟩ | anon)
    · exact Or.inl ⟨input, member, Or.inr ref⟩
    · exact Or.inl ⟨input, member, Or.inl image⟩
    · exact Or.inr anon

theorem marks_disjoint_iff : List.Disjoint (markKeys V t) (markKeys V u) ↔
    ∀ kind, List.Disjoint (kindKeys V t kind) (kindKeys V u kind) := by
  constructor
  · intro apart kind key here there
    exact apart (List.mem_map_of_mem ((mem_txMarks ⟨kind, key⟩).mpr here))
      (List.mem_map_of_mem ((mem_txMarks ⟨kind, key⟩).mpr there))
  · intro apart key here there
    obtain ⟨mark, listed, rfl⟩ := List.mem_map.mp here
    obtain ⟨mark', listed', same⟩ := List.mem_map.mp there
    obtain rfl := Mark.render_injective same
    exact apart mark'.kind ((mem_txMarks mark').mp listed) ((mem_txMarks mark').mp listed')

end Kinds

/-! ## What the pool selects -/

namespace Mempool

variable {V : Primitives} {m : Mempool}

/-- Selection takes some of the entries, in order. -/
theorem fill_sublist (n budget : Nat) (entries : List Entry) :
    ∃ es : List Entry, es.Sublist entries ∧ fill n budget entries = es.map Entry.tx := by
  suffices all : ∀ (out : List Transaction) (used : Nat),
      ∃ es : List Entry, es.Sublist entries ∧
      (entries.foldl (fun (state : List Transaction × Nat) (e : Entry) =>
        if n ≤ state.1.length ∨ budget < state.2 + e.size then (state.1, state.2)
        else (state.1 ++ [e.tx], state.2 + e.size)) (out, used)).1 = out ++ es.map Entry.tx by
    exact all [] 0
  induction entries with
  | nil => exact fun out used => ⟨[], List.Sublist.refl _, (List.append_nil out).symm⟩
  | cons e entries ih =>
    intro out used
    rw [List.foldl_cons]
    dsimp only
    split_ifs with skipped
    · obtain ⟨es, part, same⟩ := ih out used
      exact ⟨es, part.cons e, same⟩
    · obtain ⟨es, part, same⟩ := ih (out ++ [e.tx]) (used + e.size)
      refine ⟨e :: es, part.cons_cons e, ?_⟩
      rw [same, List.append_assoc]
      rfl

/-- The selected transactions belong to different entries of the pool. -/
theorem select_spec (indexed : Indexed V m) (now : Int) (n : Nat) :
    ∃ es : List Entry, (select V now m n).1 = es.map Entry.tx ∧
      es.Pairwise (fun e f => e.id ≠ f.id) ∧ ∀ e ∈ es, m.txs[e.id]? = some e := by
  have live := indexed.expire now
  obtain ⟨es, part, same⟩ := fill_sublist n (Config.maxBlockBytes - coinbaseReserveBytes)
    (((expireLocked V now m).txs.toList.map Prod.snd).insertionSort fun a b => !sortsBefore b a)
  have perm := List.perm_insertionSort (fun a b => !sortsBefore b a)
    ((expireLocked V now m).txs.toList.map Prod.snd)
  have entries : ∀ e ∈ (expireLocked V now m).txs.toList.map Prod.snd,
      (expireLocked V now m).txs[e.id]? = some e := by
    intro e member
    obtain ⟨⟨id, e⟩, listed, rfl⟩ := List.mem_map.mp member
    have found := Std.ExtTreeMap.mem_toList_iff_getElem?_eq_some.mp listed
    rw [(live.entries id e found).1]
    exact found
  have distinct : ((expireLocked V now m).txs.toList.map Prod.snd).Pairwise
      (fun e f => e.id ≠ f.id) := by
    rw [List.pairwise_map]
    refine Std.ExtTreeMap.distinct_keys_toList.imp_of_mem ?_
    rintro ⟨id, e⟩ ⟨id', e'⟩ listed listed' apart equal
    have found := Std.ExtTreeMap.mem_toList_iff_getElem?_eq_some.mp listed
    have found' := Std.ExtTreeMap.mem_toList_iff_getElem?_eq_some.mp listed'
    change e.id = e'.id at equal
    rw [(live.entries id e found).1, (live.entries id' e' found').1] at equal
    rw [equal] at apart
    exact apart Std.compare_self
  refine ⟨es, same, ?_, fun e member => ?_⟩
  · exact ((perm.pairwise_iff fun h => Ne.symm h).mpr distinct).sublist part
  · have found := entries e (perm.mem_iff.mp (part.subset member))
    unfold expireLocked at found
    rw [deleteAll_txs] at found
    split_ifs at found
    exact found

/-! ## Compatible transactions -/

/-- Nothing of one transaction is in the way of the other, as far as the mempool does not
look: what they create, and an output reference that is the other's key image. -/
structure Fits (V : Primitives) (t u : Transaction) : Prop where
  outputs : List.Disjoint (madeKeys V t) (madeKeys V u)
  swapKeys : ∀ so ∈ t.swapOutputs, ∀ other ∈ u.swapOutputs, so.swapKey ≠ other.swapKey
  nonces : ∀ so ∈ t.swapOutputs, ∀ other ∈ u.swapOutputs, so.claimR ≠ other.claimR
  vaultKeys : ∀ vo ∈ t.vaultOutputs, ∀ other ∈ u.vaultOutputs, vo.vaultKey ≠ other.vaultKey
  references : List.Disjoint (refsOf t) (imagesOf V u) ∧ List.Disjoint (imagesOf V t) (refsOf u)

/-- The transactions and the coinbase can stand in one block. -/
structure Compatible (V : Primitives) (L : Ledger) (cb : Transaction) (txs : List Transaction) :
    Prop where
  ids : ∀ t ∈ txs, cb.hash V ≠ t.hash V
  coinbase : ∀ t ∈ txs, List.Disjoint (madeKeys V cb) (madeKeys V t)
  fits : txs.Pairwise (Fits V)
  fees : (txs.map fun t => t.fee.toNat).sum < 2 ^ 64
  yields : ((txs.flatMap Transaction.vaultInputs).map fun input => input.yield.toNat).sum ≤
    L.incentivePool.toNat

/-- Disjoint images. -/
theorem disjoint_map_iff {α β : Type} {f g : α → β} {first second : List α} :
    List.Disjoint (first.map f) (second.map g) ↔
      ∀ item ∈ first, ∀ other ∈ second, f item ≠ g other := by
  constructor
  · intro apart item member other member' same
    exact apart (List.mem_map_of_mem member) (same ▸ List.mem_map_of_mem member')
  · intro apart key here there
    obtain ⟨item, member, rfl⟩ := List.mem_map.mp here
    obtain ⟨other, member', same⟩ := List.mem_map.mp there
    exact apart item member other member' same.symm

/-- Entries that share no spend key share nothing that they spend. -/
theorem keysApart_iff {t u : Transaction}
    (images : ∀ input ∈ t.inputs, input.keyImage.length = 32)
    (images' : ∀ input ∈ u.inputs, input.keyImage.length = 32)
    (spends : ∀ key ∈ spendKeys V t, key ∉ spendKeys V u) :
    KeysApart V t u ↔ Fits V t u := by
  have tagged : ∀ {t : Transaction}, (∀ input ∈ t.inputs, input.keyImage.length = 32) →
      ∀ image ∈ imagesOf V t, ascii "tag:" ++ image ∈ spendKeys V t := by
    intro t widths image member
    rw [imagesOf, List.mem_append, List.mem_map, List.mem_map] at member
    rcases member with ⟨input, listed, rfl⟩ | ⟨input, listed, rfl⟩
    · exact image_mem_spendKeys listed (widths input listed)
    · exact anonKey_mem_spendKeys listed
  have noted : ∀ {t : Transaction}, ∀ nullifier ∈ kindKeys V t .note,
      ascii "zknull:" ++ nullifier ∈ spendKeys V t := by
    intro t nullifier member
    rw [kindKeys, List.mem_append, List.mem_map, List.mem_map] at member
    rcases member with ⟨input, listed, rfl⟩ | ⟨s, listed, rfl⟩
    · exact zkKey_mem_spendKeys listed
    · exact czkKey_mem_spendKeys listed
  rw [KeysApart, marks_disjoint_iff]
  constructor
  · rintro ⟨kinds, outputs⟩
    have coins := kinds .coin
    rw [kindKeys, kindKeys, List.disjoint_append_left, List.disjoint_append_right,
      List.disjoint_append_right] at coins
    exact ⟨outputs, disjoint_map_iff.mp (kinds .swapOut), disjoint_map_iff.mp (kinds .nonce),
      disjoint_map_iff.mp (kinds .vaultOut), coins.1.2, coins.2.1⟩
  · rintro ⟨outputs, swapKeys, nonces, vaultKeys, first, second⟩
    refine ⟨fun kind => ?_, outputs⟩
    cases kind with
    | coin =>
      rw [kindKeys, kindKeys, List.disjoint_append_left, List.disjoint_append_right,
        List.disjoint_append_right]
      refine ⟨⟨?_, first⟩, second, ?_⟩
      · refine disjoint_map_iff.mpr fun input listed other listed' same => ?_
        exact spends _ (ref_mem_spendKeys listed) (same ▸ ref_mem_spendKeys listed')
      · intro image here there
        exact spends _ (tagged images image here) (tagged images' image there)
    | swapIn =>
      refine disjoint_map_iff.mpr fun input listed other listed' same => ?_
      exact spends _ (swapKey_mem_spendKeys listed) (same ▸ swapKey_mem_spendKeys listed')
    | vaultIn =>
      refine disjoint_map_iff.mpr fun input listed other listed' same => ?_
      exact spends _ (vaultKey_mem_spendKeys listed) (same ▸ vaultKey_mem_spendKeys listed')
    | nonce => exact disjoint_map_iff.mpr nonces
    | swapOut => exact disjoint_map_iff.mpr swapKeys
    | vaultOut => exact disjoint_map_iff.mpr vaultKeys
    | note =>
      intro nullifier here there
      exact spends _ (noted nullifier here) (noted nullifier there)

/-- **Block templates.** On every chain, with every pool whose transactions pass one by one,
a block of what `Select` returns and a correct coinbase passes the rules on its
transactions exactly when they are compatible. -/
theorem template_accepted_iff {chain : List Block} {cache : ProofCache} {now : Int} {n : Nat}
    {skip : Transaction → Bool} {b : Block} {cb : Transaction} {made : List Bytes × List Bytes}
    (run : CacheRun V chain cache) (reached : Reachable V m)
    (pooled : ∀ (id : Bytes) (e : Entry), m.txs[id]? = some e →
      (validateStandaloneTx V (replay V chain) cache e.tx).1 = .ok ())
    (keeps : ∀ t, proofVerified cache (Transaction.hash V t) = true → skip t = true)
    (body : b.txs = cb :: (select V now m n).1)
    (height : b.header.height = (replay V chain).headers.length)
    (isCoinbase : cb.isCoinbase = true) (legs : checkCoinbaseLegs cb = .ok ())
    (outputs : checkOutputs V (replay V chain) false [] cb.outputs = .ok made) :
    (∃ tally, checkBody V skip (replay V chain) b = .ok tally) ↔
      Compatible V (replay V chain) cb (select V now m n).1 := by
  have regular := run.chained.regular
  have indexed := reached.indexed
  obtain ⟨es, selected, distinct, found⟩ := select_spec indexed now n
  obtain ⟨primes, prime⟩ := made
  rw [selected] at body ⊢
  have each : ∀ e ∈ es, ∃ result, validateTxLocked V (replay V chain)
      (proofVerified cache (e.tx.hash V)) e.tx b.header.height ⟨[], []⟩ = .ok result := by
    intro e member
    obtain ⟨tip, result, tipFound, valid⟩ :=
      (validateStandaloneTx_ok V _).mp (pooled e.id e (found e member))
    rw [regular.tip tipFound, ← height] at valid
    exact ⟨result, valid⟩
  have plain : ∀ e ∈ es, e.tx.isCoinbase = false ∧
      ∀ input ∈ e.tx.inputs, input.keyImage.length = 32 := by
    intro e member
    obtain ⟨⟨_, _⟩, valid⟩ := each e member
    obtain ⟨normal, _, _, _, facts⟩ := validateTx_classical regular.noPQOutput valid
    exact ⟨normal, fun input listed => (facts.inputs input listed).1⟩
  have each' : ∀ t ∈ es.map Entry.tx, ∃ result, validateTxLocked V (replay V chain)
      (proofVerified cache (t.hash V)) t b.header.height ⟨[], []⟩ = .ok result := by
    intro t member
    obtain ⟨e, listed, rfl⟩ := List.mem_map.mp member
    exact each e listed
  have ids : ((es.map Entry.tx).map fun t => t.hash V).Nodup := by
    rw [List.map_map, List.Nodup, List.pairwise_map]
    refine distinct.imp_of_mem fun member member' apart same => apart ?_
    rw [← (indexed.entries _ _ (found _ member)).2.1, ← (indexed.entries _ _ (found _ member')).2.1]
    exact congrArg hexstr same
  have pairs : (es.map Entry.tx).Pairwise (KeysApart V) ↔ (es.map Entry.tx).Pairwise (Fits V) := by
    have iff : ∀ {e f : Entry}, e ∈ es → f ∈ es → e.id ≠ f.id →
        (KeysApart V e.tx f.tx ↔ Fits V e.tx f.tx) := by
      intro e f member member' apart
      refine keysApart_iff (plain e member).2 (plain f member').2 fun key here there => apart ?_
      exact indexed.owners.apart (found e member) (found f member') here there
    rw [List.pairwise_map, List.pairwise_map]
    exact ⟨fun all => (all.and distinct).imp_of_mem fun member member' both =>
        (iff member member' both.2).mp both.1,
      fun all => (all.and distinct).imp_of_mem fun member member' both =>
        (iff member member' both.2).mpr both.1⟩
  have list : (∃ other, checkTxList V b = .ok other) ↔
      ∀ t ∈ es.map Entry.tx, cb.hash V ≠ t.hash V := by
    constructor
    · rintro ⟨other, passed⟩ t member same
      have nodup := checkTxList_distinct passed
      rw [body, List.map_cons, List.nodup_cons] at nodup
      exact nodup.1 (List.mem_map.mpr ⟨t, member, same.symm⟩)
    · intro apart
      refine ⟨cb, checkTxList_passes body isCoinbase ?_ ?_⟩
      · intro t member
        obtain ⟨e, listed, rfl⟩ := List.mem_map.mp member
        exact (plain e listed).1
      · rw [body, List.map_cons, List.nodup_cons]
        refine ⟨fun member => ?_, ids⟩
        obtain ⟨t, listed, same⟩ := List.mem_map.mp member
        exact apart t listed same.symm
  have tallied := tally_iff regular.noPQOutput (fun t _ => keeps t) each' ⟨primes, ⟨[], prime⟩, 0⟩
  have away : ∀ t, AwayFrom V ⟨[], prime⟩ t ↔ List.Disjoint (madeKeys V cb) (madeKeys V t) := by
    intro t
    have recorded := checkOutputs_records outputs
    rw [awayFrom_iff]
    constructor
    · rintro ⟨_, apart⟩ key here there
      exact apart there ((recorded key).mpr (Or.inr here))
    · intro apart
      refine ⟨fun key _ none => absurd none List.not_mem_nil, fun key here there => ?_⟩
      exact apart (((recorded key).mp there).resolve_left List.not_mem_nil) here
  have noVaults := (checkCoinbaseLegs_ok.mp legs).vaultInputs
  have claims : b.txs.flatMap Transaction.vaultInputs =
      (es.map Entry.tx).flatMap Transaction.vaultInputs := by
    rw [body, List.flatMap_cons, noVaults, List.nil_append]
  have vaults : ∀ input ∈ b.txs.flatMap Transaction.vaultInputs,
      ∃ v cap, (replay V chain).vaults[hexstr input.vaultKey]? = some v ∧
        vaultYieldAt v b.header.height = some cap := by
    intro input member
    rw [claims, List.mem_flatMap] at member
    obtain ⟨t, listed, member⟩ := member
    obtain ⟨result, valid⟩ := each' t listed
    exact validateTx_vaults regular.noPQOutput valid input member
  have yields := checkVaultYields_iff vaults
  rw [claims] at yields
  have tail : b.txs.tail = es.map Entry.tx := by
    rw [body]
    rfl
  unfold checkBody
  simp only [bind_ok, Prod.exists, pure_ok, tail]
  constructor
  · rintro ⟨tally, other, passed, primes', prime', outputs', ⟨⟩, _, _, ran, ⟨⟩, covered, rfl⟩
    obtain ⟨_, txs, split⟩ := checkTxList_ok passed
    obtain rfl := (List.cons.inj (body.symm.trans split)).1
    obtain ⟨rfl, rfl⟩ := Prod.mk.inj (Except.ok.inj (outputs.symm.trans outputs'))
    obtain ⟨coinbase, apart, fees⟩ := tallied.mp ⟨_, ran⟩
    refine ⟨list.mp ⟨_, passed⟩, fun t member => (away t).mp (coinbase t member), pairs.mp apart, ?_,
      yields.mp covered⟩
    rwa [UInt64.toNat_zero, Nat.zero_add] at fees
  · rintro ⟨idsApart, coinbase, apart, fees, covered⟩
    obtain ⟨other, passed⟩ := list.mpr idsApart
    obtain ⟨_, txs, split⟩ := checkTxList_ok passed
    obtain rfl := (List.cons.inj (body.symm.trans split)).1
    obtain ⟨tally, ran⟩ := tallied.mpr ⟨fun t member => (away t).mpr (coinbase t member),
      pairs.mpr apart, by rw [UInt64.toNat_zero, Nat.zero_add]; exact fees⟩
    exact ⟨tally, _, passed, primes, prime, outputs, (), legs, tally, ran, (), yields.mpr covered,
      rfl⟩

/-! ## Two payments to one key -/

/-- Everything is taken where everything fits. -/
theorem fill_all {n budget : Nat} {entries : List Entry} (few : entries.length ≤ n)
    (small : (entries.map Entry.size).sum ≤ budget) :
    fill n budget entries = entries.map Entry.tx := by
  suffices taken : ∀ (out : List Transaction) (used : Nat), out.length + entries.length ≤ n →
      used + (entries.map Entry.size).sum ≤ budget →
      (entries.foldl (fun (state : List Transaction × Nat) (e : Entry) =>
        if n ≤ state.1.length ∨ budget < state.2 + e.size then (state.1, state.2)
        else (state.1 ++ [e.tx], state.2 + e.size)) (out, used)).1 =
          out ++ entries.map Entry.tx by
    exact taken [] 0 (by simpa using few) (by simpa using small)
  clear few small
  induction entries with
  | nil => intro out used _ _; exact (List.append_nil out).symm
  | cons e entries ih =>
    intro out used few small
    rw [List.length_cons] at few
    rw [List.map_cons, List.sum_cons] at small
    rw [List.foldl_cons, if_neg (by dsimp only; omega), ih _ _ (by simp; omega) (by omega),
      List.append_assoc, List.map_cons]
    rfl

theorem select_all (indexed : Indexed V m) {now : Int} {n : Nat}
    (young : ∀ (id : Bytes) (e : Entry), m.txs[id]? = some e → now - e.added ≤ txTTL)
    (few : m.txs.size ≤ n)
    (small : m.curBytes ≤ (Config.maxBlockBytes - coinbaseReserveBytes : Nat)) {id : Bytes}
    {e : Entry} (found : m.txs[id]? = some e) : e.tx ∈ (select V now m n).1 := by
  have perm := List.perm_insertionSort (fun a b => !sortsBefore b a) (m.txs.toList.map Prod.snd)
  have sizes := (perm.map Entry.size).sum_eq
  have bytes := indexed.bytes
  rw [OrdMap.total] at bytes
  rw [List.map_map] at sizes
  rw [select, expireLocked_fresh young]
  dsimp only
  rw [fill_all]
  · refine List.mem_map_of_mem (perm.mem_iff.mpr ?_)
    exact List.mem_map.mpr ⟨(id, e), Std.ExtTreeMap.mem_toList_iff_getElem?_eq_some.mpr found, rfl⟩
  · rw [perm.length_eq, List.length_map, Std.ExtTreeMap.length_toList]
    exact few
  · rw [sizes]
    have same : (List.map (Entry.size ∘ Prod.snd) m.txs.toList).sum =
        (m.txs.toList.map fun entry => entry.2.size).sum := rfl
    omega

section Clash

open Testnet

set_option maxRecDepth 10000 in
theorem payments_apart : ∀ dest ∈ [1_000, 1_001],
    payment 2 dest ∈ payments ∧
    hashHex (primitives sample) (payment 2 dest) ≠ hashHex (primitives sample) (payment 1 1_000) ∧
    ∀ key ∈ spendKeys (primitives sample) (payment 2 dest),
      key ∉ spendKeys (primitives sample) (payment 1 1_000) := by
  decide +kernel

variable {dest : Nat}

/-- Both payments wait for the next block; the second goes to the key of a number. -/
def twoPool (dest : Nat) : Mempool :=
  inserted (primitives sample) 0 (payment 2 dest) lonePool

/-- The pool of both payments can be reached. -/
theorem twoPool_reachable (known : dest ∈ [1_000, 1_001]) :
    Reachable (primitives sample) (twoPool dest) := by
  obtain ⟨listed, ids, keys⟩ := payments_apart dest known
  obtain ⟨_, small, _⟩ := payments_valid (payment 1 1_000) List.mem_cons_self
  have free : conflictsOf (primitives sample) lonePool (payment 2 dest) = [] := by
    rw [conflictsOf, List.filterMap_eq_nil_iff.mpr, List.dedup_nil]
    intro key member
    change (Reservation.reserve (∅ : GoMap Bytes) _ _)[key]? = none
    rw [Reservation.lookup_reserve, if_neg (keys key member)]
    simp
  refine payment_admitted listed lonePool_reachable ?_ ?_ free (Or.inl rfl) ?_ ?_
  · intro id e found
    rw [lonePool_entries found]
    rfl
  · change ((∅ : GoMap Entry).insert _ _)[_]? = none
    rw [OrdMap.lookup_insert, if_neg ids.symm]
    simp
  · change ((∅ : GoMap Entry).insert _ _).size < _
    rw [Std.ExtTreeMap.size_insert]
    simp [maxMempoolTxs]
  · change (0 : Int) + ((payment 1 1_000).serialize.length : Nat) ≤ 1000
    omega

theorem twoPool_entries {id : Bytes} {e : Entry} (found : (twoPool dest).txs[id]? = some e) :
    e = pending (primitives sample) 0 (payment 1 1_000) ∨
      e = pending (primitives sample) 0 (payment 2 dest) := by
  change (((∅ : GoMap Entry).insert _ _).insert _ _)[id]? = some e at found
  rw [OrdMap.lookup_insert, OrdMap.lookup_insert] at found
  split_ifs at found
  · exact Or.inr (Option.some.inj found).symm
  · exact Or.inl (Option.some.inj found).symm
  · simp at found

/-- Each of them passes alone. -/
theorem twoPool_standalone (known : dest ∈ [1_000, 1_001]) {id : Bytes} {e : Entry}
    (found : (twoPool dest).txs[id]? = some e) :
    (validateStandaloneTx (primitives sample) (replay (primitives sample) restedChain) ∅
      e.tx).1 = .ok () := by
  rcases twoPool_entries found with rfl | rfl
  · exact payment_standalone List.mem_cons_self
  · exact payment_standalone (payments_apart dest known).1

/-- Both payments are selected. -/
theorem payments_selected (known : dest ∈ [1_000, 1_001]) :
    payment 1 1_000 ∈ (select (primitives sample) 0 (twoPool dest) 2).1 ∧
      payment 2 dest ∈ (select (primitives sample) 0 (twoPool dest) 2).1 := by
  obtain ⟨listed, ids, _⟩ := payments_apart dest known
  obtain ⟨_, first, _⟩ := payments_valid (payment 1 1_000) List.mem_cons_self
  obtain ⟨_, second, _⟩ := payments_valid (payment 2 dest) listed
  have young : ∀ (id : Bytes) (e : Entry), (twoPool dest).txs[id]? = some e →
      0 - e.added ≤ txTTL := by
    intro id e found
    rcases twoPool_entries found with rfl | rfl
    · exact (by decide : (0 : Int) - 0 ≤ txTTL)
    · exact (by decide : (0 : Int) - 0 ≤ txTTL)
  have few : (twoPool dest).txs.size ≤ 2 := by
    have one := @Std.ExtTreeMap.size_insert_le Bytes Entry compare ∅ _
      (hashHex (primitives sample) (payment 1 1_000))
      (pending (primitives sample) 0 (payment 1 1_000))
    rw [Std.ExtTreeMap.size_empty] at one
    exact Std.ExtTreeMap.size_insert_le.trans (Nat.add_le_add_right one 1)
  have small : (twoPool dest).curBytes ≤
      (Config.maxBlockBytes - coinbaseReserveBytes : Nat) := by
    change (0 : Int) + ((payment 1 1_000).serialize.length : Nat) +
      ((payment 2 dest).serialize.length : Nat) ≤ _
    have budget : 2_000 ≤ Config.maxBlockBytes - coinbaseReserveBytes := by decide
    omega
  have all : ∀ {id : Bytes} {e : Entry}, (twoPool dest).txs[id]? = some e →
      e.tx ∈ (select (primitives sample) 0 (twoPool dest) 2).1 := fun found =>
    select_all (twoPool_reachable known).indexed young few small found
  refine ⟨@all (hashHex (primitives sample) (payment 1 1_000))
    (pending (primitives sample) 0 (payment 1 1_000)) ?_,
    @all (hashHex (primitives sample) (payment 2 dest))
      (pending (primitives sample) 0 (payment 2 dest)) ?_⟩
  · change (((∅ : GoMap Entry).insert _ _).insert _ _)[_]? = _
    rw [OrdMap.lookup_insert, if_neg ids, OrdMap.lookup_insert, if_pos rfl]
  · change (((∅ : GoMap Entry).insert _ _).insert _ _)[_]? = _
    rw [OrdMap.lookup_insert, if_pos rfl]

/-- The coinbase for the next block. -/
def clashCoinbase : Transaction :=
  payout 62 0 (reward (replay (primitives sample) restedChain) + 2_000_000)

/-- The coinbase is correct. -/
theorem clashCoinbase_correct : checkCoinbaseLegs clashCoinbase = .ok () ∧
    ∃ made, checkOutputs (primitives sample) (replay (primitives sample) restedChain) false []
      clashCoinbase.outputs = .ok made := by
  refine ⟨checkCoinbaseLegs_ok.mpr (by constructor <;> rfl), ?_⟩
  have next : restedChain.length + 1 = 62 := by
    rw [restedChain, length_mined, List.length_replicate]
  have new := nextKey_new rested_idle (by rw [next]; decide)
  rw [next] at new
  exact ⟨_, checkOutputs_fresh sample (payout_widths _ _ _ _ List.mem_cons_self) new (by simp)⟩

/-- Both payments go to one key. -/
def clashPool : Mempool := twoPool 1_000

/-- Each payment passes alone, and no block can hold what is selected. -/
theorem payments_clash :
    CacheRun (primitives sample) restedChain ∅ ∧ Reachable (primitives sample) clashPool ∧
    (∀ (id : Bytes) (e : Entry), clashPool.txs[id]? = some e →
      (validateStandaloneTx (primitives sample) (replay (primitives sample) restedChain) ∅
        e.tx).1 = .ok ()) ∧
    clashCoinbase.isCoinbase = true ∧ checkCoinbaseLegs clashCoinbase = .ok () ∧
    (∃ made, checkOutputs (primitives sample) (replay (primitives sample) restedChain) false []
      clashCoinbase.outputs = .ok made) ∧
    ∀ (skip : Transaction → Bool) (b : Block),
      b.header.height = (replay (primitives sample) restedChain).headers.length →
      b.txs = clashCoinbase :: (select (primitives sample) 0 clashPool 2).1 →
      ¬ ∃ tally, checkBody (primitives sample) skip (replay (primitives sample) restedChain) b =
        .ok tally := by
  have chained := rested_idle.chained.mono fun L b => Verified.admitted
  have one : (1_000 : Nat) ∈ [1_000, 1_001] := List.mem_cons_self
  have pooled : ∀ (id : Bytes) (e : Entry), clashPool.txs[id]? = some e →
      (validateStandaloneTx (primitives sample) (replay (primitives sample) restedChain) ∅
        e.tx).1 = .ok () := fun id e found => twoPool_standalone one found
  refine ⟨rested_idle.chained.cacheRun, twoPool_reachable one, pooled, rfl,
    clashCoinbase_correct.1, clashCoinbase_correct.2, ?_⟩
  · rintro skip b height body ⟨tally, passed⟩
    unfold checkBody at passed
    simp only [bind_ok, Prod.exists, pure_ok] at passed
    obtain ⟨_, _, _, _, _, _, _, _, ran, _⟩ := passed
    rw [body, List.tail_cons] at ran
    obtain ⟨es, selected, _, found⟩ := select_spec (twoPool_reachable one).indexed 0 2
    have each : ∀ t ∈ (select (primitives sample) 0 clashPool 2).1, ∃ result,
        validateTxLocked (primitives sample) (replay (primitives sample) restedChain) false t
          b.header.height ⟨[], []⟩ = .ok result := by
      intro t member
      rw [clashPool, selected] at member
      obtain ⟨e, listed, rfl⟩ := List.mem_map.mp member
      obtain ⟨tip, result, tipFound, valid⟩ :=
        (validateStandaloneTx_ok (primitives sample) _).mp (pooled e.id e (found e listed))
      rw [chained.regular.tip tipFound, ← height] at valid
      have miss : proofVerified ∅ (e.tx.hash (primitives sample)) = false := by simp [proofVerified]
      rw [miss] at valid
      exact ⟨result, valid⟩
    obtain ⟨_, apart, _⟩ := (tally_iff chained.regular.noPQOutput
      (fun _ _ none => absurd none Bool.false_ne_true) each _).mp ⟨_, ran⟩
    have outputs : (select (primitives sample) 0 clashPool 2).1.Pairwise (fun t u =>
        List.Disjoint (madeKeys (primitives sample) t) (madeKeys (primitives sample) u)) :=
      apart.imp fun keys => keys.2
    have symmetric : Std.Symm (fun t u : Transaction =>
        List.Disjoint (madeKeys (primitives sample) t) (madeKeys (primitives sample) u)) :=
      ⟨fun _ _ disjoint => disjoint.symm⟩
    obtain ⟨first, second⟩ := payments_selected one
    have differ : payment 1 1_000 ≠ payment 2 1_000 :=
      fun same => (payments_apart 1_000 one).2.1 (by rw [same])
    have paid : ∀ born,
        hexstr (payoutKey 1_000) ∈ madeKeys (primitives sample) (payment born 1_000) :=
      fun born => List.mem_cons_self
    exact outputs.forall first second differ (paid 1) (paid 2)

/-- The payments go to different keys. -/
def pairPool : Mempool := twoPool 1_001

/-- A block of what the template keeps. -/
def pairBlock : Block where
  header := (mine sample 0 restedChain).header
  txs := clashCoinbase :: (select (primitives sample) 0 pairPool 2).1

set_option maxRecDepth 10000 in
theorem clashCoinbase_apart : ∀ t ∈ [payment 1 1_000, payment 2 1_001],
    clashCoinbase.hash (primitives sample) ≠ t.hash (primitives sample) ∧
    ∀ key ∈ madeKeys (primitives sample) clashCoinbase, key ∉ madeKeys (primitives sample) t := by
  decide

set_option maxRecDepth 10000 in
theorem payments_disjoint : ∀ pair ∈ [(payment 1 1_000, payment 2 1_001),
      (payment 2 1_001, payment 1 1_000)],
    (∀ key ∈ madeKeys (primitives sample) pair.1, key ∉ madeKeys (primitives sample) pair.2) ∧
      (∀ key ∈ refsOf pair.1, key ∉ imagesOf (primitives sample) pair.2) ∧
      ∀ key ∈ imagesOf (primitives sample) pair.1, key ∉ refsOf pair.2 := by
  decide

/-- The payments to different keys fit together. -/
theorem payments_fit {t u : Transaction} (first : t ∈ [payment 1 1_000, payment 2 1_001])
    (second : u ∈ [payment 1 1_000, payment 2 1_001]) (apart : t ≠ u) :
    Fits (primitives sample) t u := by
  have both : (t, u) ∈ [(payment 1 1_000, payment 2 1_001), (payment 2 1_001, payment 1 1_000)] := by
    rcases List.mem_pair.mp first with rfl | rfl <;> rcases List.mem_pair.mp second with rfl | rfl
    · exact absurd rfl apart
    · exact List.mem_cons_self
    · exact List.mem_cons_of_mem _ List.mem_cons_self
    · exact absurd rfl apart
  have plain : t.swapOutputs = [] ∧ t.vaultOutputs = [] := by
    rcases List.mem_pair.mp first with rfl | rfl
    · exact ⟨rfl, rfl⟩
    · exact ⟨rfl, rfl⟩
  obtain ⟨outputs, refs, images⟩ := payments_disjoint (t, u) both
  constructor
  case outputs => exact fun key here there => outputs key here there
  case swapKeys => simp [plain.1]
  case nonces => simp [plain.1]
  case vaultKeys => simp [plain.2]
  case references =>
    exact ⟨fun key here there => refs key here there, fun key here there => images key here there⟩

/-- Two payments and the coinbase stand in a block. -/
theorem payments_template :
    payment 1 1_000 ∈ pairBlock.txs ∧ payment 2 1_001 ∈ pairBlock.txs ∧
    ∃ tally, checkBody (primitives sample) (fun _ => false)
      (replay (primitives sample) restedChain) pairBlock = .ok tally := by
  have two : (1_001 : Nat) ∈ [1_000, 1_001] := by simp
  obtain ⟨first, second⟩ := payments_selected two
  refine ⟨List.mem_cons_of_mem _ first, List.mem_cons_of_mem _ second, ?_⟩
  have height : pairBlock.header.height =
      (replay (primitives sample) restedChain).headers.length :=
    (mine_height rested_idle 0).trans rested_idle.length.symm
  obtain ⟨legs, made, outputs⟩ := clashCoinbase_correct
  refine (template_accepted_iff rested_idle.chained.cacheRun (twoPool_reachable two) ?_ ?_ rfl
    height rfl legs outputs).mpr ?_
  · intro id e found
    exact twoPool_standalone two found
  · intro t known
    simp [proofVerified] at known
  obtain ⟨es, selected, distinct, found⟩ := select_spec (twoPool_reachable two).indexed 0 2
  have listed : ∀ e ∈ es, e.tx ∈ [payment 1 1_000, payment 2 1_001] ∧
      e.id = hashHex (primitives sample) e.tx := by
    intro e member
    rcases twoPool_entries (found e member) with same | same
    · rw [same]
      exact ⟨List.mem_cons_self, rfl⟩
    · rw [same]
      exact ⟨List.mem_cons_of_mem _ List.mem_cons_self, rfl⟩
  have txs : ∀ t ∈ es.map Entry.tx, t ∈ [payment 1 1_000, payment 2 1_001] := by
    intro t member
    obtain ⟨e, held, rfl⟩ := List.mem_map.mp member
    exact (listed e held).1
  have pairwise : (es.map Entry.tx).Pairwise (· ≠ ·) := by
    rw [List.pairwise_map]
    refine distinct.imp_of_mem fun held held' apart same => apart ?_
    rw [(listed _ held).2, (listed _ held').2, same]
  rw [selected]
  constructor
  case ids => exact fun t member => (clashCoinbase_apart t (txs t member)).1
  case coinbase =>
    exact fun t member key here there => (clashCoinbase_apart t (txs t member)).2 key here there
  case fits =>
    exact pairwise.imp_of_mem fun held held' apart => payments_fit (txs _ held) (txs _ held') apart
  case fees =>
    have few : (es.map Entry.tx).length ≤ 2 := (List.Nodup.subperm pairwise txs).length_le
    have fee : ∀ n ∈ (es.map Entry.tx).map fun t => t.fee.toNat, n ≤ 1_000_000 := by
      intro n member
      obtain ⟨t, held, rfl⟩ := List.mem_map.mp member
      rcases List.mem_pair.mp (txs t held) with rfl | rfl
      · exact Nat.le_refl _
      · exact Nat.le_refl _
    have total := List.sum_le_card_nsmul _ _ fee
    rw [List.length_map, smul_eq_mul] at total
    omega
  case yields =>
    have none : (es.map Entry.tx).flatMap Transaction.vaultInputs = [] := by
      refine List.flatMap_eq_nil_iff.mpr fun t held => ?_
      rcases List.mem_pair.mp (txs t held) with rfl | rfl
      · rfl
      · rfl
    rw [none]
    exact Nat.zero_le _

end Clash

end Mempool

end Obscura
