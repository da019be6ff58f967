import Obscura.Replay

/-! # The fork-choice rule

The decision of `addBlockLocked` on a block that does not extend the active tip: more
cumulative work, or equal work and a lower id, and a fork point that is not too deep. A
fork deeper than `maxReorgDepth` and not deeper than the lag of the PoW seed is adopted
only with a large lead in work, for the recovery of a partitioned network.
-/

namespace Obscura

open Wire

/-- The abandoned blocks beyond which a heavier branch is refused. -/
def Config.maxReorgDepth : Nat := 100

/-- The further depth that an operator may grant. -/
def Config.partitionRecoveryMargin : Nat := 100

/-- The cumulative work of a chain, genesis included. -/
def chainWork (chain : List Block) : Nat :=
  (chain.map fun b => b.header.difficulty).sum + Config.genesisDifficulty

/-- The tie-break order: lexicographic on ids. -/
def lowerHash (a b : Hash) : Bool := a < b

variable (V : Primitives)

/-- How many blocks of the active chain are not on the candidate branch. Both contain
genesis. -/
def reorgDepth (active candidate : List Block) : Nat :=
  (active.takeWhile fun b => b.header.id V ∉ candidate.map fun c => c.header.id V).length

/-- A node on the active chain adopts the branch that ends with `tip`. -/
def adopts (active : List Block) (tip : Block) (rest : List Block) : Bool :=
  let best := (active.head?.map fun b => b.header.id V).getD
    ((genesisBlock V (.empty V)).header.id V)
  let work := chainWork (tip :: rest)
  let becomesBest := decide (chainWork active < work) ||
    (decide (work = chainWork active) && lowerHash (tip.header.id V) best)
  let depth := reorgDepth V active (tip :: rest)
  let within := decide (depth ≤ Config.maxReorgDepth) ||
    (decide (depth ≤ Config.powSeedLag) &&
      decide (Config.partitionRecoveryMargin * tip.header.difficulty + chainWork active ≤ work))
  becomesBest && decide (tip.header.prevHash ≠ best) && within

end Obscura
