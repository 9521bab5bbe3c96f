import Ivory.Base.Word
import Ivory.Base.Sequence
import Ivory.Base.Codec
import Ivory.Base.Text
import Ivory.Base.Readers
import Ivory.Base.Limbs
import Ivory.Base.Shift
import Ivory.Base.Table
import Ivory.Base.Ancestry
import Ivory.Base.Writes
import Ivory.Base.Cells
import Ivory.Base.Interleaving
import Ivory.Base.Gossip
import Ivory.Base.Drawers
import Ivory.Base.Hex
import Ivory.Primitives.Uint
import Ivory.Primitives.Arithmetic
import Ivory.Primitives.Types
import Ivory.Primitives.HexText
import Ivory.Primitives.Numbers
import Ivory.Core
import Ivory.Crypto
import Ivory.Quant
import Ivory.PythonClient
import Ivory.Consensus
import Ivory.State.Trie
import Ivory.State.TrieRoot
import Ivory.State.StateDB
import Ivory.Network
import Ivory.Vm
import Ivory.Executor
import Ivory.State.Ledger
import Ivory.Executor.Effects
import Ivory.TxPool
import Ivory.Chain.Store
import Ivory.Chain.Apply
import Ivory.Devnet
import Ivory.Devnet.Script
import Ivory.Executor.Frame
import Ivory.Executor.Failure
import Ivory.Executor.Metering
import Ivory.Executor.Simulate
import Ivory.TxPool.Calls
import Ivory.TxPool.Invariant
import Ivory.Consensus.Seals
import Ivory.Consensus.Domains
import Ivory.State.TrieProof
import Ivory.State.TrieShape
import Ivory.State.Commitment
import Ivory.State.StorageRoots
import Ivory.Chain.Producer
import Ivory.Chain.StoreInvariant
import Ivory.Chain.Canonical
import Ivory.Chain.Order
import Ivory.Chain.ForkPoint
import Ivory.Chain.Import
import Ivory.Chain.TxIndex
import Ivory.Chain.Handles
import Ivory.Chain.Replay
import Ivory.Chain.History
import Ivory.Chain.Accounting
import Ivory.Chain.Agreement
import Ivory.Chain.ProducerOrder
import Ivory.Chain.BlockGas
import Ivory.Chain.Code
import Ivory.Chain.Acceptance
import Ivory.Persist
import Ivory.Persist.Bytes
import Ivory.Rpc
import Ivory.Light
import Ivory.Node
import Ivory.Node.GenesisFile
import Ivory.Node.Orphans
import Ivory.Node.Convergence
import Ivory.Node.Sync
import Ivory.Node.SyncRounds
import Ivory.Node.Archive
import Ivory.Node.Disk
import Ivory.Node.Admission
import Ivory.Node.Readmission
import Ivory.Node.Tasks
import Ivory.Node.Waiting
import Ivory.Node.Mirror
import Ivory.Node.Sessions
import Ivory.Node.Crash
import Ivory.Rpc.Value
import Ivory.Rpc.Handler
import Ivory.Chain.Window
import Ivory.Chain.Contracts
import Ivory.Rpc.Queries
import Ivory.Rpc.Logs
import Ivory.Rpc.Lookups
import Ivory.Rpc.Contracts
import Ivory.Base.Broadcast
import Ivory.Base.Unwinding
import Ivory.Rpc.Service
import Ivory.Rpc.Subscriptions
import Ivory.Rpc.Isolation
import Ivory.Node.Events
import Ivory.Chain.Funded
import Ivory.Node.Ticks
import Ivory.Node.Confirmation
import Ivory.Node.Poison
