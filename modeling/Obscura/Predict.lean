import Obscura.CacheSoundness

/-! # Predicted and applied roots

The roots of a header are computed three times: by the miner's template, by
validation, which predicts them from the state before the block, and by the state
after the block was applied. They agree.
-/

namespace Obscura

open Wire Tx Checked

section Roots

variable (V : Primitives) (L : Ledger)

end Roots

/-! ## Template and validation -/

section Template

variable {V : Primitives} {L : Ledger}

end Template

/-! ## Validation and application -/

section Chain

variable {V : Primitives}

end Chain

section Sample

open Testnet

end Sample

end Obscura
