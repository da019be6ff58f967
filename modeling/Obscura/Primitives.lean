import Obscura.Lib.Wire

/-! # Cryptographic primitives

The hash functions, proof verifiers and group operations the consensus rules
call. They live in other packages and libraries; the rules only use their
answers, so the model takes them as one bundle of functions.
-/

namespace Obscura

open Wire

/-- A hash as the source's `[32]byte` values. -/
abbrev Hash := Bytes

/-- A 256-bit commitment-tree node in its canonical 32-byte encoding. -/
abbrev Node := Bytes

/-- A parsed Schnorr signature. -/
structure FullSig where
  R : Bytes
  s : Bytes
deriving DecidableEq

/-- A parsed hybrid (Schnorr and WOTS+) signature. -/
structure HybridSig where
  schnorr : Bytes
  wots : Bytes
deriving DecidableEq

/-- The hash functions and proof checks that the chain calls. -/
structure Primitives where
  /-- `blake2b.Sum256`. -/
  blake2b : Bytes → Hash
  /-- `pow.HashSeed`: the PoW hash of a preimage under an epoch seed. -/
  powHashSeed : (seed preimage : Bytes) → Hash
  /-- `pow.Meets`. -/
  powMeets : Hash → (difficulty : Nat) → Bool
  /-- `edwards25519.Point.SetBytes` succeeds. -/
  pointDecodes : Bytes → Bool
  /-- The decoded point is the identity. -/
  pointIsIdentity : Bytes → Bool
  /-- `commit.VerifyRangeBytes`. -/
  verifyRangeBytes : (commitment proof : Bytes) → Bool
  /-- `commit.VerifyOwnership`. -/
  verifyOwnership : (outputRef proof ctx : Bytes) → Bool
  /-- `commit.VerifyValueEquality`. -/
  verifyValueEquality : (pseudo commitment proof ctx : Bytes) → Bool
  /-- `commit.CanonicalNullifier`: the cofactor-cleared tag. -/
  canonicalNullifier : Bytes → Option Bytes
  /-- `commit.VerifyKeyImage`. -/
  verifyKeyImage : (outputRef keyImage proof ctx : Bytes) → Bool
  /-- `commit.VerifyAnonSpendBytes`. -/
  verifyAnonSpendBytes : (ringKeys ringCommits : List Bytes) → (pseudo tag proof ctx : Bytes) → Bool
  /-- `commit.ParseFullSig`. -/
  parseFullSig : Bytes → Option FullSig
  /-- `commit.VerifyFull`. -/
  verifyFull : (key ctx : Bytes) → FullSig → Bool
  /-- `swap.ClaimBindingOK`. -/
  claimBindingOK : (sigR claimR claimT : Bytes) → Bool
  /-- `swap.AggregateKeyVerified`, as the encoded aggregate key. -/
  aggregateKeyVerified : (claimA claimB popA popB : Bytes) → Option Bytes
  /-- `commit.VerifyConservationGen`. -/
  verifyConservationGen :
    (pseudoIns outs : List Bytes) → (publicIn publicOut : UInt64) → (proof ctx : Bytes) → Bool
  /-- `commit.VerifyCoinbaseConservation`. -/
  verifyCoinbaseConservation : (minted : UInt64) → (outs : List Bytes) → (proof ctx : Bytes) → Bool
  /-- `stark.UnmarshalProof`; a decoded proof is kept as its bytes. -/
  unmarshalProof : Bytes → Except String Bytes
  /-- `stark.VerifyNfMint`. -/
  verifyNfMint : (amount : UInt64) → (leaf : Node) → (bind proof : Bytes) → Bool
  /-- `stark.VerifyNfSpend` at the fixed tree depth. -/
  verifyNfSpend : (amount : UInt64) → (anchor nf : Node) → (bind proof : Bytes) → Bool
  /-- `stark.VerifyCnfSpend` at the fixed tree depth and range width. -/
  verifyCnfSpend : (nf anchor leafOut : Node) → (fee : UInt64) → (bind proof : Bytes) → Bool
  /-- `stark.WideHash2`. -/
  wideHash2 : Node → Node → Node
  /-- `pqsign.HybridVerify`. -/
  hybridVerify : (outputRef p wotsRoot ctx : Bytes) → HybridSig → Bool
  /-- `accumulator.HashToPrimeVerifyableData`: the prime as big-endian bytes. -/
  hashToPrime : (oneTimeKey : Bytes) → (nonce : UInt64) → Option Bytes
  /-- The generator of the group of unknown order, marshalled. -/
  groupGenerator : Bytes
  /-- `group.Group.Exp` on marshalled elements. -/
  groupExp : Bytes → Nat → Bytes

end Obscura
