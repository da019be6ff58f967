import Obscura.Accum
import Obscura.AccumulatorState
import Obscura.Anchors
import Obscura.Apply
import Obscura.ApplySpec
import Obscura.ArrivalSeed
import Obscura.Base58
import Obscura.Block
import Obscura.BlockIndex
import Obscura.BlockSpec
import Obscura.Books
import Obscura.CacheSoundness
import Obscura.Canonical
import Obscura.Commit.AnonSpend
import Obscura.Commit.Completeness
import Obscura.Commit.PaymentProof
import Obscura.Commit.RangeProof
import Obscura.Commit.Serialize
import Obscura.Commit.SpecialSoundness
import Obscura.CommitmentTree
import Obscura.Config
import Obscura.Conservation
import Obscura.Decodable
import Obscura.Decode
import Obscura.EpochPaths
import Obscura.EpochRestore
import Obscura.Fee
import Obscura.Forge
import Obscura.ForkChoice
import Obscura.ForkRule
import Obscura.Group.ClassGroup
import Obscura.Group.Encoding
import Obscura.Group.Exp
import Obscura.Group.Reduction
import Obscura.HeaderChain
import Obscura.Ideal
import Obscura.Ledger
import Obscura.Lib.Channels
import Obscura.Lib.ChaumPedersen
import Obscura.Lib.Checked
import Obscura.Lib.Codec
import Obscura.Lib.Effects
import Obscura.Lib.Frontier
import Obscura.Lib.Layout
import Obscura.Lib.Lossy
import Obscura.Lib.Magnitude
import Obscura.Lib.MerkleTree
import Obscura.Lib.Numerals
import Obscura.Lib.OneOfMany
import Obscura.Lib.OrdMap
import Obscura.Lib.OrderStatistic
import Obscura.Lib.Peaks
import Obscura.Lib.Persist
import Obscura.Lib.QuadraticForms
import Obscura.Lib.RadixTwo
import Obscura.Lib.Reader
import Obscura.Lib.Registry
import Obscura.Lib.Reservation
import Obscura.Lib.Schnorr
import Obscura.Lib.Slices
import Obscura.Lib.Windowed
import Obscura.Lib.Winternitz
import Obscura.Lib.Wire
import Obscura.Locks
import Obscura.Malleability
import Obscura.MembershipProofs
import Obscura.Mempool
import Obscura.MempoolAdmission
import Obscura.MempoolFull
import Obscura.MempoolIndex
import Obscura.MerkleProofs
import Obscura.Mnemonic
import Obscura.Nanocrypto
import Obscura.NoteIndependence
import Obscura.Nullifiers
import Obscura.OrphanPool
import Obscura.P2p.AddrBook
import Obscura.P2p.Bans
import Obscura.P2p.Dandelion
import Obscura.P2p.Dispatch
import Obscura.P2p.HostPort
import Obscura.P2p.Inbound
import Obscura.P2p.PoolConsistency
import Obscura.P2p.SideBranch
import Obscura.P2p.SnapTransfer
import Obscura.PQConservation
import Obscura.PQLedger
import Obscura.PoolCompleteness
import Obscura.Pqcommit
import Obscura.Pqsign.Wots
import Obscura.Pqtx
import Obscura.PqtxBinding
import Obscura.Predict
import Obscura.Primitives
import Obscura.ProofCache
import Obscura.ProofNet
import Obscura.Replay
import Obscura.ReplayStores
import Obscura.Retarget
import Obscura.Revalidate
import Obscura.RootMemo
import Obscura.SetRollback
import Obscura.Snapshot
import Obscura.SnapshotSync
import Obscura.Stark.Air
import Obscura.Stark.CnfSpend
import Obscura.Stark.Extension
import Obscura.Stark.Field
import Obscura.Stark.Fri
import Obscura.Stark.FriDomain
import Obscura.Stark.Goldilocks
import Obscura.Stark.NfMint
import Obscura.Stark.NfSpend
import Obscura.Stark.NoteBlocks
import Obscura.Stark.Ntt
import Obscura.Stark.NttExact
import Obscura.Stark.Transcript
import Obscura.Stark.WideBlocks
import Obscura.Stark.WideCircuit
import Obscura.Stark.WidePoseidon
import Obscura.StateBinding
import Obscura.Statement
import Obscura.StealthPayments
import Obscura.Store
import Obscura.StoreSpec
import Obscura.Streaming
import Obscura.Swap.Adaptor
import Obscura.Swap.MakerCrash
import Obscura.Swap.MakerDriver
import Obscura.Swap.MakerRun
import Obscura.Swap.MakerTerminal
import Obscura.Swap.Messages
import Obscura.Swap.NonceSafety
import Obscura.Swap.Recovery
import Obscura.Swap.Session
import Obscura.Swap.SweepRetry
import Obscura.Swap.TakerDriver
import Obscura.Swap.TakerRun
import Obscura.SwapReorg
import Obscura.Swapbook.Book
import Obscura.Swapbook.FillOrKill
import Obscura.Swapbook.NoOversell
import Obscura.Swapbook.PostOnly
import Obscura.Swapbook.Quotes
import Obscura.Swapbook.Ranking
import Obscura.Swapbook.Rate
import Obscura.Swapbook.RateText
import Obscura.Swapd.LockExact
import Obscura.Swapd.NanoAddress
import Obscura.Swapd.NanoRPC
import Obscura.Swapd.Sweep
import Obscura.Swapnet.Coordinator
import Obscura.Swapnet.FundingCap
import Obscura.Swapnet.Reconciler
import Obscura.Swapnet.Relay
import Obscura.Template
import Obscura.Testnet
import Obscura.Transfer
import Obscura.Tx
import Obscura.Validate
import Obscura.ValidateBlock
import Obscura.ValidateSpec
import Obscura.VaultYield
import Obscura.Wallet
import Obscura.WalletReceipts
import Obscura.WalletSpend
import Obscura.WalletState
import Obscura.Witnesses
