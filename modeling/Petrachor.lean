import Petrachor.Lib.ParentTree
import Petrachor.Lib.StateRun
import Petrachor.Lib.FirstMax
import Petrachor.Lib.BinarySearch
import Petrachor.Lib.Word
import Petrachor.Lib.RemoveIf
import Petrachor.Lib.SortedMap
import Petrachor.Lib.Intervals
import Petrachor.Lib.Grouped
import Petrachor.Lib.Waiting
import Petrachor.Lib.Intake
import Petrachor.Lib.Keyed
import Petrachor.Lib.Ledger
import Petrachor.Lib.Bloom
import Petrachor.Lib.Bisection
import Petrachor.Common
import Petrachor.EVMSchedule
import Petrachor.Instruction
import Petrachor.RLP
import Petrachor.RLPRead
import Petrachor.RLPTree
import Petrachor.RLPCanon
import Petrachor.RLPStrict
import Petrachor.RLPCursor
import Petrachor.TrieHash
import Petrachor.TrieCommon
import Petrachor.BlockHeader
import Petrachor.HeaderRead
import Petrachor.Transaction
import Petrachor.TransactionQueue.Drop
import Petrachor.TransactionQueue.Order
import Petrachor.Client.Announce
import Petrachor.ReceiptRead
import Petrachor.SealEngine
import Petrachor.State
import Petrachor.StateCache
import Petrachor.StateCache.Cell
import Petrachor.StateCache.Rollback
import Petrachor.StateCache.Invariant
import Petrachor.StateCache.Commit
import Petrachor.StateCache.Restore
import Petrachor.Executive
import Petrachor.LegacyVM
import Petrachor.BlockChain.Store
import Petrachor.Block
import Petrachor.BlockChain.Import
import Petrachor.SizedBlocks
import Petrachor.BlockQueue
import Petrachor.BlockQueue.Size
import Petrachor.BlockChain.Tree
import Petrachor.BlockChain.Insert
import Petrachor.BlockChain.Run
import Petrachor.BlockQueue.View
import Petrachor.BlockQueue.UpdateBad
import Petrachor.BlockQueue.Step
import Petrachor.BlockQueue.Thins
import Petrachor.BlockQueue.Distinct
import Petrachor.BlockChain.EmptyBlock
import Petrachor.Capability
import Petrachor.Devnet
import Petrachor.LegacyVM.Arithmetic
import Petrachor.LegacyVM.NetGas
import Petrachor.LegacyVM.Control
import Petrachor.LegacyVM.MemoryGas
import Petrachor.HeaderCodec
import Petrachor.TransactionRead
import Petrachor.Forgery
import Petrachor.TransactionCodec
import Petrachor.SealSlack
import Petrachor.StakeBound
import Petrachor.Sealing
import Petrachor.Precompiled
import Petrachor.Lib.Segments
import Petrachor.Lib.Reservation
import Petrachor.Lib.Selection
import Petrachor.BlockChainSync.Items
import Petrachor.BlockChainSync.ItemRuns
import Petrachor.BlockHash
import Petrachor.StateLedger
import Petrachor.Conserve
import Petrachor.Enact
import Petrachor.BlockQueue.Devnet
import Petrachor.BlockQueue.Membership
import Petrachor.BlockQueue.Descent
import Petrachor.BlockQueue.Order
import Petrachor.BlockQueue.Difficulty
import Petrachor.BlockChain.ForkChoice
import Petrachor.BlockChain.Atomic
import Petrachor.BlockChain.TreeRoute
import Petrachor.BlockChain.Children
import Petrachor.BlockChain.Uncles
import Petrachor.BlockChain.Route
import Petrachor.BlockChain.Index
import Petrachor.Lib.LevelSearch
import Petrachor.BlockChain.BloomSearch
import Petrachor.BlockChain.Blooms
import Petrachor.BlockChain.BloomIndex
import Petrachor.BlockChain.DropGood
import Petrachor.BlockChain.Sync
import Petrachor.StateCache.CodeView
import Petrachor.Lib.Program
import Petrachor.StateCache.Plain
import Petrachor.StateCache.Shows
import Petrachor.StateCache.Simulation
import Petrachor.StateCache.Executive
import Petrachor.StateCache.Replay
import Petrachor.StateCache.ReplayAgrees
import Petrachor.ChildHeader
import Petrachor.LogFilter
import Petrachor.Client.Watch
import Petrachor.Client.Estimate
import Petrachor.RangeMask
import Petrachor.RangeMask.Run
import Petrachor.RLPIterator
import Petrachor.NodeTable.Buckets
import Petrachor.NodeTable.Evictions
import Petrachor.NodeTable.Nearest
import Petrachor.RLPXFrame
import Petrachor.Session.Ingress
import Petrachor.SnapshotImporter
import Petrachor.SnapshotImporter.BlockChunks
import Petrachor.EthereumHost
import Petrachor.EthereumHost.BlockHeaders
import Petrachor.SnapshotImporter.StateChunks
import Petrachor.SnapshotImporter.Accounts
import Petrachor.SnapshotImporter.Cuts
import Petrachor.BlockChainSync.Requests
import Petrachor.BlockChainSync.Downloads
import Petrachor.Lib.Patricia
import Petrachor.NibbleSlice
import Petrachor.TrieDB
import Petrachor.Lib.Tally
import Petrachor.TrieDB.Nodes
import Petrachor.TrieDB.Merge
import Petrachor.MemoryDB
import Petrachor.OverlayDB
import Petrachor.TrieDB.Check
import Petrachor.TrieDB.Durability
import Petrachor.TrieDB.Forest
import Petrachor.TrieDB.Iterator
import Petrachor.TrieDB.LowerBound
import Petrachor.TrieDB.Root
import Petrachor.TrieDB.Lax
import Petrachor.TrieDB.Secure
import Petrachor.StateTrie.Run
import Petrachor.StateTrie.Durability
