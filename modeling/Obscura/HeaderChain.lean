import Obscura.BlockSpec
import Obscura.Testnet

/-! # Chains of headers

The rules for headers are written three times in the source: in block validation over the
live chain, in the verification of a snapshot over a slice of headers, and in the light
client. The slices are replayed from genesis, so the heights follow the positions, and
every window ends before the header that is checked.
-/

namespace Obscura

open Wire Tx Checked

/-! ## The live rules -/

/-- The header checks of `validateBlockLocked`. -/
def headerChecks (V : Primitives) (now : Int) (L : Ledger) (h tip : Header) : Check Unit := do
  reject (h.height ≠ tip.height + 1) (invalid s!"height {h.height}, expected {tip.height + 1}")
  reject (h.prevHash ≠ tip.id V) (invalid "prevhash mismatch")
  reject (h.difficulty = 0) (invalid "zero difficulty")
  reject (now + Config.maxFutureDriftSeconds < h.timestamp)
    (invalid "timestamp too far in future")
  reject (h.timestamp ≤ L.medianTimePast) (invalid "timestamp <= median-time-past")
  reject (h.difficulty ≠ L.expectedDifficulty)
    (invalid s!"difficulty {h.difficulty}, expected {L.expectedDifficulty}")
  let seed ← orReject (L.powSeed V h.height)
    (invalid s!"missing PoW epoch seed for height {h.height}")
  reject (!V.powMeets (h.powHashSeed V seed) h.difficulty) (invalid "insufficient proof of work")

theorem checkHeader_eq (V : Primitives) (now : Int) (L : Ledger) (b : Block) (tip : Header) :
    checkHeader V now L b tip = (do
      reject (Config.maxBlockBytes < b.serialize.length)
        (invalid s!"block too large ({b.serialize.length} > {Config.maxBlockBytes})")
      headerChecks V now L b.header tip) :=
  rfl

/-! ## The rules for a snapshot -/

/-- The timestamps and difficulties of the headers before a position. -/
def recentTSDiffsAt (headers : List Header) (upto : Nat) : List Int × List Nat :=
  let recent := (headers.take upto).drop (upto - (Config.difficultyWindow + 1))
  (recent.map Header.timestamp, recent.map Header.difficulty)

/-- The median of the last eleven timestamps below a height. -/
def medianTimePastAt (headers : List Header) (upto : Nat) : Int :=
  let tsv := ((headers.take upto).drop (upto - 11)).map Header.timestamp
  ((tsv.insertionSort (· ≤ ·))[tsv.length / 2]?).getD 0

/-- The proof-of-work seed at a height; none when the header is missing. -/
def powSeedAt (V : Primitives) (headers : List Header) (height : Nat) : Option Bytes :=
  let sh := Config.powSeedHeight height
  if sh = 0 then some Config.powGenesisSeed
  else headers[sh]?.map fun header => header.id V

/-- The checks on the header at position `i`, after `prev`. -/
def verifyHeaderAt (V : Primitives) (headers : List Header) (prev h : Header) (i : Nat) :
    Check Unit := do
  reject (h.height ≠ prev.height + 1) (invalid s!"snapshot header {i} non-sequential height")
  reject (h.prevHash ≠ prev.id V) (invalid s!"snapshot header {i} prevhash mismatch")
  reject (h.difficulty = 0) (invalid s!"snapshot header {i} zero difficulty")
  reject (h.timestamp ≤ medianTimePastAt headers i)
    (invalid s!"snapshot header {i} timestamp <= median-time-past")
  let (ts, df) := recentTSDiffsAt headers i
  let exp := nextDifficulty ts df
  reject (h.difficulty ≠ exp)
    (invalid s!"snapshot header {i} difficulty {h.difficulty}, expected {exp}")
  let seed ← orReject (powSeedAt V headers h.height)
    (invalid s!"snapshot header {i} missing PoW seed")
  reject (!V.powMeets (h.powHashSeed V seed) h.difficulty)
    (invalid s!"snapshot header {i} insufficient PoW")

/-- Every header against those before it, from genesis on. -/
def verifyHeaderChain (V : Primitives) (headers : List Header) : Check Unit := do
  let g ← orReject headers.head? (invalid "empty snapshot header chain")
  reject (g.height ≠ 0 ∨ g.prevHash ≠ zeroHash ∨ g.timestamp ≠ genesisTimestamp)
    (invalid "malformed snapshot genesis header")
  ((headers.zip headers.tail).zipIdx 1).forM fun ((prev, h), i) => verifyHeaderAt V headers prev h i

/-! ## The rules of the light client -/

namespace Light

/-- The timestamps and difficulties that the retarget looks at. -/
def window (prev : List Header) : List Int × List Nat :=
  let recent := prev.drop (prev.length - (Config.difficultyWindow + 1))
  (recent.map Header.timestamp, recent.map Header.difficulty)

/-- The median of the last eleven timestamps. -/
def medianTimePast (prev : List Header) : Int :=
  let tsv := (prev.drop (prev.length - 11)).map Header.timestamp
  if tsv.length = 0 then 0 else ((tsv.insertionSort (· ≤ ·))[tsv.length / 2]?).getD 0

/-- The seed of an epoch whose block is not in the slice is the first one. -/
def powSeed (V : Primitives) (headers : List Header) (height : Nat) : Bytes :=
  let sh := Config.powSeedHeight height
  ((if 0 < sh then headers[sh]?.map fun header => header.id V else none)).getD
    Config.powGenesisSeed

/-- The checks on the header at a position after genesis. -/
def verifyLinked (V : Primitives) (now : Int) (headers : List Header) (h : Header) (i : Nat) :
    Check Unit := do
  let prev ← orReject headers[i - 1]? "runtime error: index out of range"
  reject (h.prevHash ≠ prev.id V) "light: broken parent link"
  reject (h.difficulty = 0) "light: zero difficulty"
  let (ts, df) := window (headers.take i)
  reject (h.difficulty ≠ nextDifficulty ts df) "light: wrong difficulty"
  reject (h.timestamp ≤ medianTimePast (headers.take i)) "light: timestamp <= MTP"
  reject (now + Config.maxFutureDriftSeconds < h.timestamp)
    "light: timestamp too far in future"
  reject (!V.powMeets (h.powHashSeed V (powSeed V headers h.height)) h.difficulty)
    "light: insufficient proof of work"

/-- The id and height of the tip, and the cumulative work. -/
def verifyHeaderChain (V : Primitives) (now : Int) (headers : List Header)
    (expectGenesisID : Hash) : Check (Hash × Nat × Nat) := do
  let first ← orReject headers.head? "light: empty header chain"
  reject (first.height ≠ 0 ∨ first.id V ≠ expectGenesisID) "light: genesis mismatch"
  let work ← headers.zipIdx.foldlM (fun work (h, i) => do
    reject (h.height ≠ i) "light: non-contiguous height"
    if 0 < i then verifyLinked V now headers h i
    pure (work + h.difficulty)) 0
  let last ← orReject headers.getLast? "runtime error: index out of range"
  pure (last.id V, last.height, work)

end Light

/-! ## One rule set -/

section Rules

variable {V : Primitives} {headers : List Header} {L : Ledger} {h tip : Header} {i : Nat}

/-- The live rules that do not read the clock. -/
structure Follows (V : Primitives) (L : Ledger) (h tip : Header) : Prop where
  height : h.height = tip.height + 1
  prevHash : h.prevHash = tip.id V
  positive : h.difficulty ≠ 0
  afterMedian : L.medianTimePast < h.timestamp
  difficulty : h.difficulty = L.expectedDifficulty
  work : ∃ seed, L.powSeed V h.height = some seed ∧
    V.powMeets (h.powHashSeed V seed) h.difficulty = true

theorem headerChecks_ok {now : Int} {result : Unit} :
    headerChecks V now L h tip = .ok result ↔
      Follows V L h tip ∧ h.timestamp ≤ now + Config.maxFutureDriftSeconds := by
  unfold headerChecks
  simp only [bind_ok, reject_ok, orReject_ok, exists_const, not_lt, ne_eq, not_not, not_le,
    Bool.not_eq_true, Bool.not_eq_false']
  constructor
  · rintro ⟨height, prevHash, positive, notFuture, afterMedian, difficulty, work⟩
    exact ⟨⟨height, prevHash, positive, afterMedian, difficulty, work⟩, notFuture⟩
  · rintro ⟨⟨height, prevHash, positive, afterMedian, difficulty, work⟩, notFuture⟩
    exact ⟨height, prevHash, positive, notFuture, afterMedian, difficulty, work⟩

theorem headerChecks_anytime :
    (∃ now, headerChecks V now L h tip = .ok ()) ↔ Follows V L h tip := by
  constructor
  · rintro ⟨now, passed⟩
    exact (headerChecks_ok.mp passed).1
  · intro follows
    refine ⟨h.timestamp, headerChecks_ok.mpr ⟨follows, ?_⟩⟩
    have drift : (0 : Int) ≤ Config.maxFutureDriftSeconds := by decide
    omega

theorem powSeedHeight_lt {height : Nat} (positive : Config.powSeedHeight height ≠ 0) :
    Config.powSeedHeight height < height := by
  unfold Config.powSeedHeight at positive ⊢
  split_ifs at positive ⊢ with early
  · exact absurd rfl positive
  · have below := Nat.div_mul_le_self (height - Config.powSeedLag) Config.powEpochLen
    have lag : 0 < Config.powSeedLag := by decide
    omega

section Slice

variable (before : L.headers = headers.take i) (inside : i ≤ headers.length)

include before inside

theorem length_before : L.headers.length = i := by
  rw [before, List.length_take]
  omega

theorem medianTimePastAt_eq : medianTimePastAt headers i = L.medianTimePast := by
  unfold medianTimePastAt Ledger.medianTimePast
  rw [length_before before inside, before]

theorem recentTSDiffsAt_eq : recentTSDiffsAt headers i = L.recentTimestampsAndDiffs := by
  unfold recentTSDiffsAt Ledger.recentTimestampsAndDiffs
  rw [length_before before inside, before]

omit inside in
theorem light_window_eq : Light.window (headers.take i) = L.recentTimestampsAndDiffs := by
  rw [← before]
  rfl

theorem light_medianTimePast_eq (later : 0 < i) :
    Light.medianTimePast (headers.take i) = L.medianTimePast := by
  have some : ((L.headers.drop (L.headers.length - 11)).map Header.timestamp).length ≠ 0 := by
    have length := length_before before inside
    rw [List.length_map, List.length_drop]
    omega
  unfold Light.medianTimePast
  dsimp only
  rw [← before, if_neg some]
  rfl

omit inside in
theorem powSeedAt_eq : powSeedAt V headers i = L.powSeed V i := by
  unfold powSeedAt Ledger.powSeed
  dsimp only
  split_ifs with epoch
  · rfl
  · have below := powSeedHeight_lt epoch
    rw [before, List.getElem?_take_of_lt below]

theorem light_powSeed_eq : L.powSeed V i = some (Light.powSeed V headers i) := by
  unfold Light.powSeed Ledger.powSeed
  dsimp only
  split_ifs with epoch later later
  · omega
  · rfl
  · have below := powSeedHeight_lt epoch
    rw [before, List.getElem?_take_of_lt below, List.getElem?_eq_getElem (by omega)]
    rfl
  · omega

theorem verifyHeaderAt_ok (height : tip.height + 1 = i) {result : Unit} :
    verifyHeaderAt V headers tip h i = .ok result ↔ Follows V L h tip := by
  unfold verifyHeaderAt
  simp only [bind_ok, reject_ok, orReject_ok, exists_const, ne_eq, not_not, not_le,
    Bool.not_eq_true, Bool.not_eq_false', medianTimePastAt_eq before inside,
    recentTSDiffsAt_eq before inside]
  constructor
  · rintro ⟨next, prevHash, positive, afterMedian, difficulty, seed, found, work⟩
    rw [next, height, powSeedAt_eq before] at found
    refine ⟨next, prevHash, positive, afterMedian, difficulty, seed, ?_, work⟩
    rwa [next, height]
  · rintro ⟨next, prevHash, positive, afterMedian, difficulty, seed, found, work⟩
    refine ⟨next, prevHash, positive, afterMedian, difficulty, seed, ?_, work⟩
    rw [next, height] at found ⊢
    rwa [powSeedAt_eq before]

theorem light_verifyLinked_ok {now : Int} (later : 0 < i) (prev : headers[i - 1]? = some tip)
    (height : tip.height + 1 = i) (next : h.height = i) {result : Unit} :
    Light.verifyLinked V now headers h i = .ok result ↔
      Follows V L h tip ∧ h.timestamp ≤ now + Config.maxFutureDriftSeconds := by
  have seed := light_powSeed_eq (V := V) before inside
  unfold Light.verifyLinked
  simp only [bind_ok, reject_ok, orReject_ok, exists_const, not_lt, ne_eq, not_not, not_le,
    Bool.not_eq_true, Bool.not_eq_false', light_window_eq before,
    light_medianTimePast_eq before inside later, prev, Option.some.injEq, exists_eq_left', next]
  constructor
  · rintro ⟨prevHash, positive, difficulty, afterMedian, notFuture, work⟩
    exact ⟨⟨by omega, prevHash, positive, afterMedian, difficulty, _, by rw [next]; exact seed,
      work⟩, notFuture⟩
  · rintro ⟨⟨_, prevHash, positive, afterMedian, difficulty, other, found, work⟩, notFuture⟩
    rw [next, seed] at found
    obtain rfl := Option.some.inj found
    exact ⟨prevHash, positive, difficulty, afterMedian, notFuture, work⟩

end Slice

theorem heights_eq (start : ∀ g, headers[0]? = some g → g.height = 0)
    (step : ∀ (i : Nat) (tip h : Header), headers[i]? = some tip → headers[i + 1]? = some h →
      h.height = tip.height + 1) :
    ∀ (i : Nat) (h : Header), headers[i]? = some h → h.height = i := by
  intro i
  induction i with
  | zero => exact start
  | succ i ih =>
    intro h found
    have inside := (List.getElem?_eq_some_iff.mp found).1
    obtain ⟨tip, below⟩ : ∃ tip, headers[i]? = some tip :=
      ⟨_, List.getElem?_eq_getElem (by omega)⟩
    rw [step i tip h below found, ih tip below]

/-- The preceding headers as a live chain. -/
def preceding (V : Primitives) (headers : List Header) (i : Nat) : Ledger :=
  { Ledger.empty V with headers := headers.take i }

/-- Every header follows the ones before it. -/
def EachFollows (V : Primitives) (headers : List Header) : Prop :=
  ∀ (i : Nat) (tip h : Header), headers[i]? = some tip → headers[i + 1]? = some h →
    Follows V (preceding V headers (i + 1)) h tip

theorem EachFollows.heights (each : EachFollows V headers)
    (start : ∀ g, headers[0]? = some g → g.height = 0) :
    ∀ (i : Nat) (h : Header), headers[i]? = some h → h.height = i :=
  heights_eq start fun i tip h below found => (each i tip h below found).height

theorem mem_links {tip h : Header} :
    ((tip, h), i) ∈ (headers.zip headers.tail).zipIdx 1 ↔
      ∃ j, i = j + 1 ∧ headers[j]? = some tip ∧ headers[j + 1]? = some h := by
  rw [List.mk_mem_zipIdx_iff_le_and_getElem?_sub, List.getElem?_zip_eq_some, List.getElem?_tail]
  constructor
  · rintro ⟨later, below, found⟩
    exact ⟨i - 1, by omega, below, found⟩
  · rintro ⟨j, rfl, below, found⟩
    exact ⟨by omega, below, found⟩

/-- The snapshot's check of a chain: every header follows. -/
theorem verifyHeaderChain_ok {g : Header} {rest : List Header} (height : g.height = 0)
    (prevHash : g.prevHash = zeroHash) (timestamp : g.timestamp = genesisTimestamp) :
    verifyHeaderChain V (g :: rest) = .ok () ↔ EachFollows V (g :: rest) := by
  have start : ∀ first, (g :: rest)[0]? = some first → first.height = 0 := by
    intro first found
    obtain rfl := Option.some.inj found
    exact height
  have links : verifyHeaderChain V (g :: rest) = .ok () ↔
      ∀ (j : Nat) (tip h : Header), (g :: rest)[j]? = some tip → (g :: rest)[j + 1]? = some h →
        verifyHeaderAt V (g :: rest) tip h (j + 1) = .ok () := by
    unfold verifyHeaderChain
    simp only [bind_ok, reject_ok, orReject_ok, exists_const, List.head?_cons, Option.some.injEq,
      exists_eq_left', height, prevHash, timestamp, forM_ok]
    constructor
    · rintro ⟨_, all⟩ j tip h below found
      exact all ((tip, h), j + 1) (mem_links.mpr ⟨j, rfl, below, found⟩)
    · intro all
      refine ⟨by simp, ?_⟩
      rintro ⟨⟨tip, h⟩, i⟩ member
      obtain ⟨j, rfl, below, found⟩ := mem_links.mp member
      exact all j tip h below found
  have agree : ∀ (j : Nat) (tip h : Header), (g :: rest)[j + 1]? = some h → tip.height = j →
      (verifyHeaderAt V (g :: rest) tip h (j + 1) = .ok () ↔
        Follows V (preceding V (g :: rest) (j + 1)) h tip) := by
    intro j tip h found position
    have inside := (List.getElem?_eq_some_iff.mp found).1
    exact verifyHeaderAt_ok rfl (by omega) (by omega)
  rw [links]
  constructor
  · intro all
    have heights := heights_eq start fun i tip h below found => by
      have passed := all i tip h below found
      unfold verifyHeaderAt at passed
      simp only [reject_bind_ok, ne_eq, not_not] at passed
      exact passed.1
    intro j tip h below found
    exact (agree j tip h found (heights j tip below)).mp (all j tip h below found)
  · intro each j tip h below found
    exact (agree j tip h found (each.heights start j tip below)).mpr (each j tip h below found)

/-- The light client's check of a chain: every header follows, and none is ahead of the clock. -/
theorem light_verifyHeaderChain_ok {now : Int} {g : Header} {rest : List Header}
    (height : g.height = 0) :
    (∃ result, Light.verifyHeaderChain V now (g :: rest) (g.id V) = .ok result) ↔
      EachFollows V (g :: rest) ∧
        ∀ h ∈ rest, h.timestamp ≤ now + Config.maxFutureDriftSeconds := by
  have start : ∀ first, (g :: rest)[0]? = some first → first.height = 0 := by
    intro first found
    obtain rfl := Option.some.inj found
    exact height
  have loop : (∃ result, Light.verifyHeaderChain V now (g :: rest) (g.id V) = .ok result) ↔
      ∀ (i : Nat) (h : Header), (g :: rest)[i]? = some h →
        h.height = i ∧ (0 < i → Light.verifyLinked V now (g :: rest) h i = .ok ()) := by
    have step : ∀ (work : Nat) (entry : Header × Nat) (next : Nat),
        (do
          reject (entry.1.height ≠ entry.2) "light: non-contiguous height"
          if 0 < entry.2 then Light.verifyLinked V now (g :: rest) entry.1 entry.2
          pure (work + entry.1.difficulty) : Check Nat) = .ok next ↔
        (entry.1.height = entry.2 ∧
          (0 < entry.2 → Light.verifyLinked V now (g :: rest) entry.1 entry.2 = .ok ())) ∧
          work + entry.1.difficulty = next := by
      intro work entry next
      rw [reject_bind_ok, ne_eq, not_not, and_assoc]
      refine and_congr_right fun _ => ?_
      by_cases later : 0 < entry.2
      · simp only [later, ↓reduceIte, bind_ok, pure_ok, true_implies]
        constructor
        · rintro ⟨_, checked, same⟩
          exact ⟨checked, same⟩
        · rintro ⟨checked, same⟩
          exact ⟨(), checked, same⟩
      · simp only [later, ↓reduceIte, pure_ok, false_implies, true_and]
    unfold Light.verifyHeaderChain
    simp only [bind_ok, reject_ok, orReject_ok, exists_const, List.head?_cons, Option.some.injEq,
      exists_eq_left', height, foldlM_checked step, pure_ok]
    constructor
    · rintro ⟨_, _, _, ⟨all, _⟩, _⟩ i h found
      exact all (h, i) (List.mk_mem_zipIdx_iff_getElem?.mpr found)
    · intro all
      refine ⟨_, by simp, _, ⟨?_, rfl⟩, _, List.getLast?_eq_some_getLast (List.cons_ne_nil g rest), rfl⟩
      rintro ⟨h, i⟩ member
      exact all i h (List.mk_mem_zipIdx_iff_getElem?.mp member)
  have agree : ∀ (j : Nat) (tip h : Header), (g :: rest)[j]? = some tip →
      (g :: rest)[j + 1]? = some h → tip.height = j → h.height = j + 1 →
      (Light.verifyLinked V now (g :: rest) h (j + 1) = .ok () ↔
        Follows V (preceding V (g :: rest) (j + 1)) h tip ∧
          h.timestamp ≤ now + Config.maxFutureDriftSeconds) := by
    intro j tip h below found position next
    have inside := (List.getElem?_eq_some_iff.mp found).1
    exact light_verifyLinked_ok rfl (by omega) (Nat.succ_pos j) below (by omega) next
  rw [loop]
  constructor
  · intro all
    have pair : ∀ (j : Nat) (tip h : Header), (g :: rest)[j]? = some tip →
        (g :: rest)[j + 1]? = some h → Follows V (preceding V (g :: rest) (j + 1)) h tip ∧
          h.timestamp ≤ now + Config.maxFutureDriftSeconds := by
      intro j tip h below found
      exact (agree j tip h below found (all j tip below).1 (all _ h found).1).mp
        ((all _ h found).2 (Nat.succ_pos j))
    refine ⟨fun j tip h below found => (pair j tip h below found).1, fun h member => ?_⟩
    obtain ⟨j, found⟩ := List.mem_iff_getElem?.mp member
    have inside := (List.getElem?_eq_some_iff.mp found).1
    exact (pair j _ h (List.getElem?_eq_getElem (by simp; omega)) found).2
  · rintro ⟨each, notFuture⟩ i h found
    have heights := each.heights start
    refine ⟨heights i h found, fun later => ?_⟩
    obtain ⟨j, rfl⟩ : ∃ j, i = j + 1 := ⟨i - 1, by omega⟩
    have inside := (List.getElem?_eq_some_iff.mp found).1
    obtain ⟨tip, below⟩ : ∃ tip, (g :: rest)[j]? = some tip :=
      ⟨_, List.getElem?_eq_getElem (by omega)⟩
    refine (agree j tip h below found (heights j tip below) (heights _ h found)).mpr
      ⟨each j tip h below found, notFuture h ?_⟩
    exact List.mem_of_getElem? (show rest[j]? = some h from found)

/-- The live rules read nothing of the state but the headers. -/
theorem eachFollows_iff : EachFollows V headers ↔
    ∀ (i : Nat) (tip h : Header), headers[i]? = some tip → headers[i + 1]? = some h →
      ∀ L : Ledger, L.headers = headers.take (i + 1) →
        ∃ now, headerChecks V now L h tip = .ok () := by
  have same : ∀ {L : Ledger} {i : Nat} {tip h : Header}, L.headers = headers.take (i + 1) →
      (Follows V L h tip ↔ Follows V (preceding V headers (i + 1)) h tip) := by
    intro L i tip h before
    have headersEq : L.headers = (preceding V headers (i + 1)).headers := before
    have median : L.medianTimePast = (preceding V headers (i + 1)).medianTimePast := by
      unfold Ledger.medianTimePast
      rw [headersEq]
    have difficulty : L.expectedDifficulty = (preceding V headers (i + 1)).expectedDifficulty := by
      unfold Ledger.expectedDifficulty Ledger.recentTimestampsAndDiffs
      rw [headersEq]
    have seed : L.powSeed V h.height = (preceding V headers (i + 1)).powSeed V h.height := by
      unfold Ledger.powSeed
      rw [headersEq]
    constructor
    · rintro ⟨height, prevHash, positive, afterMedian, expected, work⟩
      exact ⟨height, prevHash, positive, median ▸ afterMedian, difficulty ▸ expected, seed ▸ work⟩
    · rintro ⟨height, prevHash, positive, afterMedian, expected, work⟩
      exact ⟨height, prevHash, positive, median ▸ afterMedian, difficulty ▸ expected, seed ▸ work⟩
  constructor
  · intro each i tip h below found L before
    exact headerChecks_anytime.mpr ((same before).mpr (each i tip h below found))
  · intro all i tip h below found
    exact headerChecks_anytime.mp (all i tip h below found _ rfl)

/-- The header of the genesis block that every node builds. -/
def genesisHeader (V : Primitives) : Header := (genesisBlock V (.empty V)).header

/-- **Three implementations, one rule set.** A slice of headers on top of genesis passes as
a snapshot exactly when each header would pass block validation, but for the clock, on the
chain of those before it; and it passes in the light client exactly when it passes as a
snapshot and no header after genesis is too far in the future. -/
theorem header_rules_agree (V : Primitives) (rest : List Header) :
    (verifyHeaderChain V (genesisHeader V :: rest) = .ok () ↔
      ∀ (i : Nat) (tip h : Header), (genesisHeader V :: rest)[i]? = some tip →
        (genesisHeader V :: rest)[i + 1]? = some h →
        ∀ L : Ledger, L.headers = (genesisHeader V :: rest).take (i + 1) →
          ∃ now, headerChecks V now L h tip = .ok ()) ∧
    ∀ now, (∃ result, Light.verifyHeaderChain V now (genesisHeader V :: rest)
        ((genesisHeader V).id V) = .ok result) ↔
      verifyHeaderChain V (genesisHeader V :: rest) = .ok () ∧
        ∀ h ∈ rest, h.timestamp ≤ now + Config.maxFutureDriftSeconds := by
  have snapshot := @verifyHeaderChain_ok V (genesisHeader V) rest rfl rfl rfl
  refine ⟨snapshot.trans eachFollows_iff, fun now => ?_⟩
  rw [snapshot]
  exact light_verifyHeaderChain_ok rfl

/-- The light client does not hold the genesis header against the clock. -/
theorem genesis_ahead_of_clock :
    ¬ ∀ (V : Primitives) (rest : List Header) (now : Int),
      (∃ result, Light.verifyHeaderChain V now (genesisHeader V :: rest)
        ((genesisHeader V).id V) = .ok result) ↔
      verifyHeaderChain V (genesisHeader V :: rest) = .ok () ∧
        ∀ h ∈ genesisHeader V :: rest, h.timestamp ≤ now + Config.maxFutureDriftSeconds := by
  intro claim
  have alone : EachFollows (Testnet.primitives Testnet.checksum)
      [genesisHeader (Testnet.primitives Testnet.checksum)] := by
    intro i tip h _ found
    exact absurd found (by simp)
  obtain ⟨_, bounded⟩ := (claim (Testnet.primitives Testnet.checksum) [] 0).mp
    ((light_verifyHeaderChain_ok rfl).mpr ⟨alone, fun h member => absurd member List.not_mem_nil⟩)
  have late := bounded _ List.mem_cons_self
  change (1_700_000_000 : Int) ≤ _ at late
  exact absurd late (by decide)

end Rules

end Obscura
