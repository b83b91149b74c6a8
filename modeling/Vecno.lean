import Vecno.Lib.LittleEndian
import Vecno.Lib.Checked
import Vecno.Lib.AListFold
import Vecno.TxScript.Opcodes
import Vecno.TxScript.Codec
import Vecno.TxScript.SigOpCount
import Vecno.Consensus.Hash
import Vecno.Consensus.Tx
import Vecno.Utxo.Collection
import Vecno.Utxo.Diff
import Vecno.Utxo.Composition
import Vecno.Lib.IndexSet
import Vecno.Consensus.Header
import Vecno.Consensus.ParentsBuilder
import Vecno.Consensus.IndirectParents
import Vecno.Consensus.Errors
import Vecno.Pipeline.BodyValidation
import Vecno.Consensus.Coinbase
import Vecno.Pipeline.UtxoValidation
import Vecno.Utxo.Tracking
import Vecno.Pipeline.MergesetAcceptance
import Vecno.Lib.Dag
import Vecno.Consensus.Difficulty
import Vecno.Consensus.Ghostdag.Data
import Vecno.Consensus.Ghostdag.Protocol
import Vecno.Consensus.Ghostdag.BlueSet
import Vecno.Consensus.Ghostdag.Mergeset
import Vecno.Consensus.Ghostdag.Coloring
import Vecno.Consensus.Ghostdag.KCluster
import Vecno.Lib.TopN
import Vecno.Consensus.Window.Heap
import Vecno.Utxo.DiffFrom
import Vecno.Lib.MergeJoin
import Vecno.Consensus.Ghostdag.MergesetOrder
import Vecno.Consensus.Ghostdag.Partition
import Vecno.TxScript.Engine
import Vecno.TxScript.Conditionals
import Vecno.Lib.Regroup
import Vecno.Address.Bech32
import Vecno.Address.Address
import Vecno.Address.RoundTrip
import Vecno.Lib.Limbs
import Vecno.MuHash.U3072
import Vecno.MuHash.Arith
import Vecno.MuHash.MuHash
import Vecno.Stores.Reachability
import Vecno.Lib.SignMagnitude
import Vecno.TxScript.DataStack
import Vecno.Lib.GreedyMatch
import Vecno.TxScript.Multisig
import Vecno.TxScript.PushOpcodes
import Vecno.TxScript.ScriptBuilder
import Vecno.Math.Uint
import Vecno.Math.UintArith
import Vecno.Math.DivRem
import Vecno.Math.Compact
import Vecno.Lib.VecOps
import Vecno.Consensus.DifficultyManager
import Vecno.Reachability.Interval
import Vecno.Lib.ChildTree
import Vecno.Reachability.Reindex
import Vecno.Consensus.Mass
import Vecno.Wallet.Mass
import Vecno.Mining.SequenceSelector
import Vecno.Lib.Cycles
import Vecno.Mining.TopologicalIndex
import Vecno.Mining.TopologicalIndexDfs
import Vecno.Mining.TopologicalSort
import Vecno.Lib.Bfs
import Vecno.Lib.SetMap
import Vecno.Lib.Mutating
import Vecno.Mining.Mempool.Pool
import Vecno.Mining.Mempool.OrphanPool
import Vecno.Mining.Mempool.OrphanPoolInv
import Vecno.Mining.Mempool.OrphanPoolRun
