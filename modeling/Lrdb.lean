import Lrdb.Base.Versions
import Lrdb.Base.Ranks
import Lrdb.Base.Merging
import Lrdb.Base.Runs
import Lrdb.Base.Search
import Lrdb.Core.Status
import Lrdb.Util.Comparator
import Lrdb.Core.InternalKey
import Lrdb.Util.SkipList
import Lrdb.Util.Hash
import Lrdb.Util.BloomFilter
import Lrdb.Storage.MemTable
import Lrdb.Storage.SSTable
import Lrdb.Storage.Flush
import Lrdb.Storage.FlushRead
import Lrdb.Storage.Compaction
import Lrdb.Storage.MergeComplete
import Lrdb.Storage.SSTableManager
import Lrdb.Storage.LSMTree
import Lrdb.Storage.KeptSnapshots
import Lrdb.Storage.SearchOrder
import Lrdb.Storage.Coverage
import Lrdb.Storage.Stamps
import Lrdb.Base.Scans
import Lrdb.Base.Frames
import Lrdb.Storage.MergeIterator
import Lrdb.Storage.TreeIterator
import Lrdb.Storage.LevelCompaction
import Lrdb.Concurrency.TxnIterator
import Lrdb.Storage.PointRead
import Lrdb.Concurrency.VersionChain
import Lrdb.Concurrency.VersionChainManager
import Lrdb.Concurrency.LockManager
import Lrdb.Concurrency.TxManager
import Lrdb.Concurrency.Coherence
import Lrdb.Concurrency.Effect
import Lrdb.Concurrency.Retention
import Lrdb.Wal.Record
import Lrdb.Wal.Replay
import Lrdb.Wal.Codec
import Lrdb.Wal.Reader
import Lrdb.Wal.Recovery
import Lrdb.Wal.TornTail
import Lrdb.Wal.Manager
import Lrdb.Wal.Consecutive
import Lrdb.Wal.WholeFiles
import Lrdb.Wal.ReplayOrder
import Lrdb.Wal.Sessions
import Lrdb.Wal.Rotation
import Lrdb.Db.Session
import Lrdb.Db.LatestRead
import Lrdb.Db.Recency
import Lrdb.Db.Content
import Lrdb.Db.SnapshotRead
import Lrdb.Db.RepeatableRead
import Lrdb.Db.SnapshotScan
import Lrdb.Db.Logged
import Lrdb.Db.CrashRecovery
import Lrdb.Db.CommitCrash
import Lrdb.Db.FailedCommit
import Lrdb.Db.Fidelity
import Lrdb.Base.DepthFirst
import Lrdb.Base.LockOrder
import Lrdb.Concurrency.WaitForGraph
import Lrdb.Concurrency.LockCalls
import Lrdb.Concurrency.LockState
import Lrdb.Concurrency.LockSteps
import Lrdb.Concurrency.LockQueue
import Lrdb.Concurrency.WaitCycles
import Lrdb.Concurrency.AbortSoundness
import Lrdb.Concurrency.WakeUps
import Lrdb.Concurrency.RangeLocks
import Lrdb.Concurrency.RangeExclusion
import Lrdb.Concurrency.MutexOrder
import Lrdb.Concurrency.TxSteps
import Lrdb.Concurrency.ChainOrder
import Lrdb.Concurrency.Engine
import Lrdb.Concurrency.TwoPhase
import Lrdb.Concurrency.Collection
import Lrdb.Db.CollectorRead
import Lrdb.Db.Manifest
import Lrdb.Db.ColumnFamilyManager
import Lrdb.Db.Catalogue
import Lrdb.Storage.Reload
import Lrdb.Db.Lifetime
import Lrdb.Wal.GreatestSequence
import Lrdb.Db.SyncedRecords
import Lrdb.Db.SequenceRestore
import Lrdb.Db.OpenedLogs
import Lrdb.Background.TaskManager
import Lrdb.Background.TaskSteps
import Lrdb.Background.Cancellation
import Lrdb.Background.ActiveTable
import Lrdb.Wal.FileRoundTrip
import Lrdb.Wal.ReadTrace
import Lrdb.Wal.DamagedRecord
import Lrdb.Db.DBImpl
import Lrdb.Storage.IdleTree
import Lrdb.Db.ReadOnly
import Lrdb.Db.OwnData
import Lrdb.Db.FamilyIdentity
import Lrdb.Base.Parsing
import Lrdb.Util.Coding
import Lrdb.Storage.TableCodec
import Lrdb.Storage.TableFile
import Lrdb.Storage.FinishedTable
import Lrdb.Util.BuiltInComparators
import Lrdb.Storage.FlushOrders
import Lrdb.Db.ManifestCodec
import Lrdb.Db.ManifestFile
import Lrdb.Db.ManifestCrash
import Lrdb.Base.Cursors
import Lrdb.Storage.WriteHistory
import Lrdb.Storage.StructureCheck
import Lrdb.Storage.MemTableManager
import Lrdb.Storage.FlushAll
import Lrdb.Storage.ForwardScan
import Lrdb.Concurrency.TxnScan
import Lrdb.Storage.SplitCompaction
import Lrdb.Storage.FileNames
import Lrdb.Concurrency.TransactionObject
import Lrdb.Db.ReadValidation
import Lrdb.Storage.TableIterator
import Lrdb.Storage.MergeCursor
import Lrdb.Base.Loads
import Lrdb.Storage.TableReads
import Lrdb.Wal.ExactCodec
import Lrdb.Base.Checksums
import Lrdb.Util.Crc32
import Lrdb.Wal.HeaderIntegrity
import Lrdb.Db.ManifestReads
import Lrdb.Base.Records
import Lrdb.Storage.TableCursor
import Lrdb.Storage.BlockEntries
import Lrdb.Storage.TableWalk
import Lrdb.Storage.WrittenTable
import Lrdb.Storage.TableRefinement
import Lrdb.Storage.TableSeek
import Lrdb.Storage.TableGet
import Lrdb.Storage.BlockDamage
import Lrdb.Storage.DamagedTable
import Lrdb.Base.Traces
import Lrdb.Storage.TableBounds
import Lrdb.Base.Orders
import Lrdb.Util.ComparatorLaws
import Lrdb.Util.Separators
import Lrdb.Wal.RunLength
import Lrdb.Db.OptionsRoundTrip
import Lrdb.Util.StandardBloomFilter
import Lrdb.Util.BloomBatch
import Lrdb.Storage.BloomBlock
import Lrdb.Wal.TransactionCalls
import Lrdb.Wal.CleanUp
import Lrdb.Db.RegistryRuns
import Lrdb.Util.VarintWords
import Lrdb.Core.InternalKeyOrder
import Lrdb.Base.ListCursors
import Lrdb.Db.ConcatenatingIterator
import Lrdb.Db.TwoLevelIterator
import Lrdb.Db.MergeIterator
import Lrdb.Base.LinkedLists
import Lrdb.Util.LinkedSkipList
import Lrdb.Util.SkipListLevels
import Lrdb.Util.SkipListChanges
import Lrdb.Util.SkipListRemovals
import Lrdb.Util.SkipListRuns
import Lrdb.Util.SkipListReads
import Lrdb.Storage.FlatFiles
import Lrdb.Db.Durability
import Lrdb.Base.AtomicMaps
import Lrdb.Db.AtomicMap
import Lrdb.Db.LockedReads
import Lrdb.Base.Caches
import Lrdb.Storage.ReaderCache
import Lrdb.Storage.CachedReads
import Lrdb.Background.TaskRuns
import Lrdb.Db.LifetimeMap
import Lrdb.Concurrency.FlushRounds
import Lrdb.Db.CleanClose
import Lrdb.Base.Serial
import Lrdb.Db.Serializability
import Lrdb.Storage.OpenedTable
import Lrdb.Storage.FlushedTable
import Lrdb.Storage.TableVerification
import Lrdb.Base.Simulations
import Lrdb.Storage.DiskTree
import Lrdb.Storage.DiskFlush
import Lrdb.Storage.DiskRuns
import Lrdb.Storage.UnreadableTables
import Lrdb.Concurrency.ObjectSteps
