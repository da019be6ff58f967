import Obscura.Lib.Winternitz
import Obscura.Testnet

/-! # One-time signatures from hash chains

A message digest is read as base-16 digits with a checksum; a signature shows each chain at the
digit of its place, and the verifier walks on to the top. The hash is a parameter of 32 bytes.
-/

namespace Obscura.Wots

open Wire

/-- The bytes of a hash. -/
def n : Nat := 32

/-- The values of a digit. -/
def w : Nat := 16

/-- The bits of a digit. -/
def logW : Nat := 4

/-- The digits of a message. -/
def len1 : Nat := 8 * n / logW

/-- The digits of the checksum. -/
def len2 : Nat := 3

/-- The chains of a key. -/
def wlen : Nat := len1 + len2

/-- The public seed and one value of each chain. -/
def sigSize : Nat := n + wlen * n

/-- The bytes of a public key. -/
def pubKeySize : Nat := n

/-- The bytes of a seed. -/
def seedSize : Nat := n

/-- The low 32 bits of a number, lowest byte first. -/
def le32 (v : Nat) : Bytes := (bigEndian 4 v).reverse

/-- The nibbles of a message. -/
def nibbles (msg : Bytes) : List Nat :=
  msg.flatMap fun b : UInt8 => [(b >>> 4).toNat, (b &&& 0x0f).toNat]

/-- The message digits and those of their checksum. -/
def digits (msg : Bytes) : List Nat :=
  let d := nibbles msg
  let csum := d.foldl (fun csum di => csum + (w - 1 - di)) 0
  d ++ (List.range len2).reverse.map fun i => csum >>> (i * logW) &&& (w - 1)

section Hashed

variable (blake2b : Bytes → Bytes)

/-- A hash of parts, one after another. -/
def h (parts : List Bytes) : Bytes := blake2b parts.flatten

/-- Walk a chain from a position. -/
def chain (x pubSeed : Bytes) (j start steps : Nat) : Bytes :=
  (List.range' start steps).foldl (fun out k => h blake2b [pubSeed, le32 j, le32 k, out]) x

/-- The public seed of a key. -/
def pubSeedOf (seed : Bytes) : Bytes := h blake2b [seed, ascii "Obscura/pq/wots/pubseed/v1"]

/-- The secret start of a chain. -/
def skChain (seed : Bytes) (j : Nat) : Bytes :=
  h blake2b [seed, ascii "Obscura/pq/wots/sk/v1", le32 j]

/-- The public key: the hash of the public seed and the chains' tops. -/
def rootOf (pubSeed : Bytes) (tops : List Bytes) : Bytes := h blake2b (pubSeed :: tops)

/-- `KeyGen`: every chain walked to its top. -/
def keyGen (seed : Bytes) : Except String Bytes :=
  if seed.length ≠ seedSize then
    .error "pqsign: seed must be 32 bytes"
  else
    let pubSeed := pubSeedOf blake2b seed
    let tops := (List.range wlen).map fun j =>
      chain blake2b (skChain blake2b seed j) pubSeed j 0 (w - 1)
    .ok (rootOf blake2b pubSeed tops)

/-- `Sign`: every chain walked to its digit, after the public seed. -/
def sign (seed msg : Bytes) : Except String Bytes :=
  if seed.length ≠ seedSize then
    .error "pqsign: seed must be 32 bytes"
  else
    let m := h blake2b [msg]
    let pubSeed := pubSeedOf blake2b seed
    let d := digits m
    .ok (pubSeed ++ (List.range wlen).flatMap fun j =>
      chain blake2b (skChain blake2b seed j) pubSeed j 0 (d.getD j 0))

/-- `Verify`: the chains walked on from the signature lead to the key. -/
def verify (pub msg sig : Bytes) : Bool :=
  if pub.length ≠ pubKeySize ∨ sig.length ≠ sigSize then
    false
  else
    let pubSeed := sig.take n
    let m := h blake2b [msg]
    let d := digits m
    let tops := (List.range wlen).map fun j =>
      let sj := (sig.drop (n + j * n)).take n
      chain blake2b sj pubSeed j (d.getD j 0) (w - 1 - d.getD j 0)
    rootOf blake2b pubSeed tops == pub

end Hashed

/-! ## Digits -/

theorem high_nibble (b : UInt8) : (b >>> 4).toNat = b.toNat / 16 := by
  rw [UInt8.toNat_shiftRight, Nat.shiftRight_eq_div_pow]
  rfl

theorem low_nibble (b : UInt8) : (b &&& 0x0f).toNat = b.toNat % 16 := by
  rw [UInt8.toNat_and]
  exact Nat.and_two_pow_sub_one_eq_mod b.toNat 4

theorem nibbles_lt (msg : Bytes) : ∀ digit ∈ nibbles msg, digit ≤ w - 1 := by
  intro digit member
  obtain ⟨b, -, listed⟩ := List.mem_flatMap.mp member
  have bound := b.toNat_lt
  rw [high_nibble, low_nibble] at listed
  simp only [List.mem_cons, List.not_mem_nil, or_false] at listed
  unfold w
  rcases listed with rfl | rfl <;> omega

theorem length_nibbles (msg : Bytes) : (nibbles msg).length = 2 * msg.length := by
  induction msg with
  | nil => rfl
  | cons b msg ih =>
    change (nibbles msg).length + 2 = _
    rw [ih, List.length_cons]
    omega

theorem nibbles_injective : Function.Injective nibbles := by
  intro first second same
  induction first generalizing second with
  | nil =>
    cases second with
    | nil => rfl
    | cons b second => cases same
  | cons b first ih =>
    cases second with
    | nil => cases same
    | cons b' second =>
      obtain ⟨high, rest⟩ := List.cons.inj same
      obtain ⟨low, rest⟩ := List.cons.inj rest
      have equal : b = b' := by
        rw [high_nibble, high_nibble] at high
        rw [low_nibble, low_nibble] at low
        rw [← UInt8.toNat_inj]
        omega
      rw [equal, ih rest]

theorem digits_eq (msg : Bytes) :
    digits msg = nibbles msg ++
      Winternitz.places w len2 (Winternitz.lack (w - 1) (nibbles msg)) := by
  have sum : (nibbles msg).foldl (fun csum di => csum + (w - 1 - di)) 0 =
      Winternitz.lack (w - 1) (nibbles msg) := by
    rw [Winternitz.lack, List.sum_eq_foldl, List.foldl_map]
  rw [digits, sum]
  generalize Winternitz.lack (w - 1) (nibbles msg) = csum
  have place : ∀ i, csum >>> (i * logW) &&& (w - 1) = csum / w ^ i % w := by
    intro i
    rw [show w - 1 = 2 ^ 4 - 1 from rfl, Nat.and_two_pow_sub_one_eq_mod, Nat.shiftRight_eq_div_pow,
      Nat.mul_comm, Nat.pow_mul]
    rfl
  simp only [place]
  rfl

theorem length_digits {msg : Bytes} (width : msg.length = n) : (digits msg).length = wlen := by
  rw [digits_eq, List.length_append, length_nibbles, Winternitz.length_places, width]
  rfl

theorem digits_lt {msg : Bytes} (j : Nat) : (digits msg).getD j 0 ≤ w - 1 := by
  rw [List.getD_eq_getElem?_getD]
  cases found : (digits msg)[j]? with
  | none => exact Nat.zero_le _
  | some digit =>
    have member := List.mem_of_getElem? found
    rw [digits_eq, List.mem_append] at member
    rcases member with front | back
    · exact nibbles_lt msg digit front
    · obtain ⟨i, place⟩ := List.mem_iff_getElem?.mp back
      have inside := (List.getElem?_eq_some_iff.mp place).1
      rw [Winternitz.length_places] at inside
      rw [Winternitz.getElem?_places inside] at place
      obtain rfl := Option.some.inj place
      exact Nat.le_sub_one_of_lt (Nat.mod_lt _ (by decide))

theorem exists_digit_above {first second : Bytes} (width : first.length = n)
    (width' : second.length = n) (apart : first ≠ second) :
    ∃ j < wlen, (digits second).getD j 0 < (digits first).getD j 0 := by
  have length : (nibbles first).length = (nibbles second).length := by
    rw [length_nibbles, length_nibbles, width, width']
  have fits : Winternitz.lack (w - 1) (nibbles first) < w ^ len2 := by
    have most := Winternitz.lack_le (w - 1) (nibbles first)
    rw [length_nibbles, width] at most
    exact most.trans_lt (by decide)
  obtain ⟨j, low, high, found, found', less⟩ := Winternitz.exists_above length
    (nibbles_lt second) fits fun same => apart (nibbles_injective same)
  rw [← digits_eq] at found found'
  refine ⟨j, ?_, ?_⟩
  · rw [← length_digits width]
    exact (List.getElem?_eq_some_iff.mp found').1
  · rwa [List.getD_eq_getElem?_getD, List.getD_eq_getElem?_getD, found, found']

/-! ## Signatures -/

theorem slice_flatten {pieces : List Bytes} {width : Nat}
    (widths : ∀ piece ∈ pieces, piece.length = width) {j : Nat} {piece : Bytes}
    (found : pieces[j]? = some piece) : (pieces.flatten.drop (j * width)).take width = piece := by
  induction pieces generalizing j with
  | nil => cases found
  | cons first pieces ih =>
    have own := widths first List.mem_cons_self
    cases j with
    | zero =>
      obtain rfl := Option.some.inj found
      rw [Nat.zero_mul, List.drop_zero, List.flatten_cons, List.take_left' own]
    | succ j =>
      rw [List.flatten_cons, Nat.succ_mul, Nat.add_comm, ← List.drop_drop,
        List.drop_left' own]
      exact ih (fun piece member => widths piece (List.mem_cons_of_mem _ member)) found

theorem length_flatten {pieces : List Bytes} {width : Nat}
    (widths : ∀ piece ∈ pieces, piece.length = width) :
    pieces.flatten.length = pieces.length * width := by
  induction pieces with
  | nil => rw [List.flatten_nil, List.length_nil, List.length_nil, Nat.zero_mul]
  | cons first pieces ih =>
    rw [List.flatten_cons, List.length_append, List.length_cons, Nat.succ_mul,
      widths first List.mem_cons_self,
      ih fun piece member => widths piece (List.mem_cons_of_mem _ member), Nat.add_comm]

section Signed

variable {blake2b : Bytes → Bytes}

/-- Walking on. -/
theorem chain_chain (x pubSeed : Bytes) (j : Nat) {start steps more : Nat} :
    chain blake2b (chain blake2b x pubSeed j start steps) pubSeed j (start + steps) more =
      chain blake2b x pubSeed j start (steps + more) := by
  rw [chain, chain, chain, ← List.foldl_append, List.range'_append_1]

theorem length_chain (hashed : ∀ bytes, (blake2b bytes).length = n) {x pubSeed : Bytes}
    (width : x.length = n) (j start steps : Nat) :
    (chain blake2b x pubSeed j start steps).length = n := by
  induction steps with
  | zero => exact width
  | succ steps ih =>
    rw [← chain_chain]
    exact hashed _

/-- **One-time signatures.** What is signed verifies, and no digest's digits lie below those of
another, so the chain values shown for one digest leave one of every other digest behind. -/
theorem wots_spec (hashed : ∀ bytes, (blake2b bytes).length = n) :
    (∀ seed msg : Bytes, seed.length = seedSize → ∃ pub sig, keyGen blake2b seed = .ok pub ∧
      sign blake2b seed msg = .ok sig ∧ verify blake2b pub msg sig = true) ∧
    ∀ first second : Bytes, first.length = n → second.length = n → first ≠ second →
      (∃ j < wlen, (digits second).getD j 0 < (digits first).getD j 0) ∧
        ∃ j < wlen, (digits first).getD j 0 < (digits second).getD j 0 := by
  constructor
  · intro seed msg width
    rw [keyGen, sign, if_neg (not_not.mpr width), if_neg (not_not.mpr width)]
    refine ⟨_, _, rfl, rfl, ?_⟩
    have keyed : (pubSeedOf blake2b seed).length = n := hashed _
    generalize pubSeedOf blake2b seed = pubSeed at keyed ⊢
    have below := @digits_lt (h blake2b [msg])
    generalize named : digits (h blake2b [msg]) = d at below ⊢
    let shown := (List.range wlen).map fun j =>
      chain blake2b (skChain blake2b seed j) pubSeed j 0 (d.getD j 0)
    have widths : ∀ piece ∈ shown, piece.length = n := by
      intro piece member
      obtain ⟨j, -, rfl⟩ := List.mem_map.mp member
      exact length_chain hashed (hashed _) j 0 _
    have total : (pubSeed ++ shown.flatten).length = sigSize := by
      rw [List.length_append, length_flatten widths, keyed, List.length_map, List.length_range]
      rfl
    have tops : ∀ j ∈ List.range wlen,
        chain blake2b (((pubSeed ++ shown.flatten).drop (n + j * n)).take n) pubSeed j
            (d.getD j 0) (w - 1 - d.getD j 0) =
          chain blake2b (skChain blake2b seed j) pubSeed j 0 (w - 1) := by
      intro j member
      have found : shown[j]? = some (chain blake2b (skChain blake2b seed j) pubSeed j 0
          (d.getD j 0)) := by
        rw [List.getElem?_map, List.getElem?_range (List.mem_range.mp member)]
        rfl
      have onward := @chain_chain blake2b (skChain blake2b seed j) pubSeed j 0 (d.getD j 0)
        (w - 1 - d.getD j 0)
      rw [← keyed, List.drop_length_add_append, keyed, slice_flatten widths found]
      rwa [Nat.zero_add, Nat.add_sub_cancel' (below j)] at onward
    have rooted : ∀ tops, (rootOf blake2b pubSeed tops).length = pubKeySize := fun tops => hashed _
    change verify blake2b _ msg (pubSeed ++ shown.flatten) = true
    rw [verify, if_neg (not_or.mpr ⟨not_not.mpr (rooted _), not_not.mpr total⟩)]
    dsimp only
    rw [named, List.take_left' keyed, List.map_congr_left tops]
    exact beq_self_eq_true _
  · intro first second width width' apart
    exact ⟨exists_digit_above width width' apart, exists_digit_above width' width apart.symm⟩

/-- A seed and a message on the hash of the test network. -/
theorem wots_checksum : ∃ pub sig,
    keyGen Testnet.checksum (List.replicate 32 7) = .ok pub ∧
      sign Testnet.checksum (List.replicate 32 7) (ascii "swap") = .ok sig ∧
      verify Testnet.checksum pub (ascii "swap") sig = true :=
  (wots_spec Testnet.checksum_length).1 (List.replicate 32 7) (ascii "swap")
    (List.length_replicate ..)

end Signed

end Obscura.Wots
