import Obscura.Lib.Wire

/-! # Consensus parameters

The mainnet values of the consensus parameters, the emission curve, the PoW seed
schedule and the vault rate table. Amounts are 64-bit words as in the source;
heights and sizes are natural numbers.
-/

namespace Obscura.Config

open Wire

/-- The smallest units of one coin. -/
def atomicPerCoin : UInt64 := 1_000_000_000_000

/-- The roots of the current epoch that stay spend anchors. -/
def maxAnchorWindow : Nat := 100_000

/-- How far back a retrievability challenge reaches. -/
def porWindow : Nat := 10_000

/-- The bits of a confidential amount. -/
def confidentialBits : Nat := 60

/-- The challenges that each block answers. -/
def porChallenges : Nat := 8

/-- The blocks that the next difficulty is taken over. -/
def difficultyWindow : Nat := 60

/-- The base reward is what is left of the supply shifted by this. -/
def emissionShift : UInt64 := 19

/-- The supply before the tail emission. -/
def moneySupplyCap : UInt64 := 18_400_000 * 1_000_000_000_000

/-- The least base reward. -/
def tailEmissionAtomic : UInt64 := 600_000_000_000

/-- The pool's share of each base reward, in basis points. -/
def incentivePoolBps : UInt64 := 500

/-- The cap of a referral bonus; none is paid. -/
def referralMaxBps : UInt64 := 0

/-- The claims after which a referrer is paid no more. -/
def referralMaxClaims : UInt64 := 1000

/-- The largest block. -/
def maxBlockBytes : Nat := 4_000_000

/-- How far in the future a block may be stamped. -/
def maxFutureDriftSeconds : Int := 7200

/-- The difficulty before there are blocks to measure. -/
def genesisDifficulty : Nat := 64

/-- Nonzero on test networks alone. -/
def fixedDifficulty : Nat := 0

/-- The seconds between blocks that the difficulty aims at. -/
def targetBlockTime : Int := 120

/-- The blocks that share a proof-of-work seed. -/
def powEpochLen : Nat := 2048

/-- How far the seed lies behind, which also bounds a reorganization of the seed. -/
def powSeedLag : Nat := 512

/-- The fee that a byte costs at least. -/
def minFeePerByte : UInt64 := 1000

/-- The blocks before a reward may be spent. -/
def coinbaseMaturity : Nat := 60

/-- The blocks between the claims and the refund of a contract. -/
def swapReorgMargin : Nat := powSeedLag

/-- The least distance of an unlock height. -/
def swapTimelockWindow : Nat := powSeedLag + 100

/-- The blocks that a taker keeps to claim in. -/
def swapMinClaimWindow : Nat := 50

/-- The members of an anonymity pool. -/
def poolSize : Nat := 16

/-- The size of the group's discriminant. -/
def classGroupDiscriminantBits : Nat := 2048

/-- The transaction limits of package `tx`. -/
def maxInputs : Nat := 1024

/-- The outputs of a transaction at most. -/
def maxOutputs : Nat := 1024

/-- The fixed depth of one commitment-tree epoch. -/
def zkDepth : Nat := 16

/-- The Goldilocks modulus. -/
def goldilocks : Nat := 2 ^ 64 - 2 ^ 32 + 1

/-- The seed of the first epoch. -/
def powGenesisSeed : Bytes := ascii "Obscura/RandomX/epoch0/v1"

/-- The height whose block id seeds the PoW cache at `height`; zero stands for
the fixed genesis seed. -/
def powSeedHeight (height : Nat) : Nat :=
  if height < powSeedLag then 0 else (height - powSeedLag) / powEpochLen * powEpochLen

/-- The coinbase subsidy at a given emitted supply. -/
def blockReward (alreadyEmitted : UInt64) : UInt64 :=
  if alreadyEmitted ≥ moneySupplyCap then
    tailEmissionAtomic
  else
    let reward := (moneySupplyCap - alreadyEmitted) >>> emissionShift
    if reward < tailEmissionAtomic then tailEmissionAtomic else reward

/-- The blocks of the fixed terms: a month, a quarter and a year. -/
def vaultTerms : List UInt64 := [21_600, 64_800, 262_800]

/-- The yearly rates of the fixed terms, in basis points. -/
def vaultRatesBps : List UInt64 := [100, 400, 2000]

/-- The yearly rate of a flexible vault. -/
def vaultFlexRateBps : UInt64 := 500

/-- The blocks of a year. -/
def vaultBlocksPerYear : Nat := 262_800

/-- The rate of an allowed term; a zero term is a flexible vault. -/
def vaultRateBps (term : UInt64) : Option UInt64 :=
  if term = 0 then
    some vaultFlexRateBps
  else
    ((vaultTerms.zip vaultRatesBps).find? fun entry => entry.1 == term).map Prod.snd

/-- Pro-rata yield of a flexible vault, zero when it does not fit a word. -/
def vaultFlexYield (principal : UInt64) (elapsedBlocks : Nat) : UInt64 :=
  if elapsedBlocks = 0 ∨ vaultBlocksPerYear = 0 then
    0
  else
    let yield :=
      principal.toNat * vaultFlexRateBps.toNat * elapsedBlocks / (vaultBlocksPerYear * 10_000)
    if yield < 2 ^ 64 then UInt64.ofNat yield else 0

end Obscura.Config
