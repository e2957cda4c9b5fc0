import Leaves.Lib.Lex
import Leaves.Lib.OrdMap
import Leaves.Lib.Nearest
import Leaves.Lib.Ranges
import Leaves.Lib.Turning
import Leaves.Lib.Linked
import Leaves.Lib.Runs
import Leaves.Lib.Fixed
import Leaves.Core.Util
import Leaves.Core.Bytes
import Leaves.Core.Prefix
import Leaves.Core.Bits
import Leaves.Core.Bitmap
import Leaves.Core.Branch
import Leaves.Core.Node
import Leaves.Core.Layout
import Leaves.Core.LayoutSpec
import Leaves.Core.LayoutIteration
import Leaves.Core.LayoutCreate
import Leaves.Core.LayoutInsert
import Leaves.Core.LayoutOffsets
import Leaves.Core.LayoutSize
import Leaves.Core.LayoutRun
import Leaves.Core.Serial
import Leaves.Core.SerialNumber
import Leaves.Trie.Tree
import Leaves.Trie.Path
import Leaves.Trie.Search
import Leaves.Trie.Matched
import Leaves.Trie.Pages
import Leaves.Trie.Room
import Leaves.Trie.Reduce
import Leaves.Trie.Shape
import Leaves.Trie.Reading
import Leaves.Memory.MemManager
import Leaves.Memory.BigMemory
import Leaves.Memory.Chunks
import Leaves.Memory.Disjointness
import Leaves.Memory.Defrag
import Leaves.Memory.BigRuns
import Leaves.Memory.Areas
import Leaves.Memory.AreaPool
import Leaves.Memory.Growth
import Leaves.Memory.Recovery
import Leaves.Memory.RecoveredPool
import Leaves.Memory.IntrusiveList
import Leaves.Memory.TwoQCache
import Leaves.Memory.CacheInvariant
import Leaves.Db.Heap
import Leaves.Db.Cursor
import Leaves.Db.Lemmas.Frames
import Leaves.Db.Lemmas.Find
import Leaves.Db.Lemmas.Walk
import Leaves.Db.Lemmas.Next
import Leaves.Db.Lemmas.Prev
import Leaves.Db.Navigation
import Leaves.Db.MapCursor
import Leaves.Db.Update
import Leaves.Db.Inserter
import Leaves.Db.Deleter
import Leaves.Db.Lemmas.Leaf
import Leaves.Db.Lemmas.Insert
import Leaves.Db.Lemmas.Remove
import Leaves.Db.Edits
import Leaves.Db.Refinement
import Leaves.Db.Removal
import Leaves.Db.Sweep
import Leaves.Db.Requests
import Leaves.Db.Lemmas.Interrupted
import Leaves.Db.Lemmas.Withdrawn
import Leaves.Db.Failure
import Leaves.Db.Transactions
import Leaves.Db.FailedCalls
import Leaves.Db.AreaLists
import Leaves.Db.AreaOwnership
import Leaves.Util.ThreadPool
import Leaves.Util.PoolInvariant
import Leaves.Util.PoolCalls
import Leaves.Storage.Wal
import Leaves.Storage.WalCodec
import Leaves.Storage.CacheStore
import Leaves.Storage.Coherence
import Leaves.Storage.CacheSteps
import Leaves.Storage.WriteBack
import Leaves.Storage.Directory
import Leaves.Storage.DirectoryCalls
import Leaves.Storage.DirectoryLemmas
import Leaves.Storage.DirectoryMap
import Leaves.Storage.DirectoryRun
import Leaves.Replication.Hash
import Leaves.Replication.Canonical
import Leaves.Replication.Pruning
import Leaves.Replication.Deletions
import Leaves.Replication.Purge
import Leaves.Replication.Retention
import Leaves.Replication.Places
import Leaves.Replication.Transfer
import Leaves.Replication.Batch
import Leaves.Replication.Lockstep
import Leaves.Replication.BigValues
import Leaves.Replication.Acks
import Leaves.Lib.StableSort
import Leaves.Multi.Tributary
import Leaves.Multi.Confluence
import Leaves.Multi.Merging
import Leaves.Multi.Tombstones
import Leaves.Multi.Slots
import Leaves.Multi.SlotInvariant
import Leaves.Multi.SlotSteps
import Leaves.Multi.Lifecycle
import Leaves.Multi.MergeTask
import Leaves.Multi.Ownership
import Leaves.Multi.Wakeup
import Leaves.Multi.View
import Leaves.Multi.Resolution
import Leaves.Multi.Enumeration
import Leaves.Multi.ConfluenceView
import Leaves.Lib.MergeWith
import Leaves.Trie.Lookup
import Leaves.Merge.Merger
import Leaves.Merge.Pages
import Leaves.Merge.DeepCopy
import Leaves.Merge.Merges
import Leaves.Merge.Standing
import Leaves.Merge.Grafting
import Leaves.Merge.Joining
import Leaves.Merge.Divergence
import Leaves.Merge.Splitting
import Leaves.Merge.Merging
import Leaves.Merge.Merged
import Leaves.Merge.Exec
import Leaves.Merge.Tributary
import Leaves.Merge.Hazards
import Leaves.Replication.HashUpdate
import Leaves.Replication.HashSync
import Leaves.Replication.HashRuns
import Leaves.Db.Lemmas.Works
import Leaves.Db.Kept
import Leaves.Db.Chains
import Leaves.Lib.Versions
import Leaves.Db.Snapshots
import Leaves.Db.SnapshotInvariant
import Leaves.Db.SnapshotSteps
import Leaves.Db.SnapshotRuns
