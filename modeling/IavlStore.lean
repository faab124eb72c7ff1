import IavlStore.Base.ByteOrder
import IavlStore.Base.Cursors
import IavlStore.Base.Encoding
import IavlStore.Base.Framing
import IavlStore.Base.Heaps
import IavlStore.Base.Ics23
import IavlStore.Base.Journal
import IavlStore.Base.Messages
import IavlStore.Base.Parsers
import IavlStore.Base.Ranges
import IavlStore.Base.Runs
import IavlStore.Base.Search
import IavlStore.Base.SizedBuffers
import IavlStore.Base.Slices
import IavlStore.Base.SortedPairs
import IavlStore.Base.StableSort
import IavlStore.Base.Timestamps
import IavlStore.Base.Varint
import IavlStore.Base.Wire
import IavlStore.Changeset.AppDb
import IavlStore.Changeset.Consumed
import IavlStore.Changeset.ConvertToSst
import IavlStore.Changeset.Dump
import IavlStore.Changeset.Format
import IavlStore.Changeset.Incremental
import IavlStore.Changeset.Replay
import IavlStore.Changeset.RestoreAppDb
import IavlStore.Changeset.RoundTrip
import IavlStore.Changeset.SorterItems
import IavlStore.Changeset.SstFiles
import IavlStore.Changeset.Verify
import IavlStore.Db.AsyncCommit
import IavlStore.Db.AsyncFailure
import IavlStore.Db.Blocks
import IavlStore.Db.Calls
import IavlStore.Db.Coherence
import IavlStore.Db.Commits
import IavlStore.Db.CorruptedTail
import IavlStore.Db.Crash
import IavlStore.Db.FileSystem
import IavlStore.Db.Import
import IavlStore.Db.Imported
import IavlStore.Db.Invariant
import IavlStore.Db.Model
import IavlStore.Db.Moves
import IavlStore.Db.Numbers
import IavlStore.Db.Pending
import IavlStore.Db.Probe
import IavlStore.Db.Prune
import IavlStore.Db.PruneSnapshots
import IavlStore.Db.Publication
import IavlStore.Db.Rollback
import IavlStore.Db.Runs
import IavlStore.Db.StateSync
import IavlStore.Db.Steps
import IavlStore.Db.VersionNumbers
import IavlStore.Db.Versions
import IavlStore.Extsort.Chunks
import IavlStore.Extsort.Merge
import IavlStore.Extsort.Sorter
import IavlStore.Extsort.Spawn
import IavlStore.Heap.Balance
import IavlStore.Heap.Contents
import IavlStore.Heap.Family
import IavlStore.Heap.Hash
import IavlStore.Heap.Iterator
import IavlStore.Heap.Model
import IavlStore.Heap.Proofs
import IavlStore.Heap.Rep
import IavlStore.Heap.Representation
import IavlStore.Heap.Simulation
import IavlStore.Heap.Trees
import IavlStore.Heap.Update
import IavlStore.Multi.Apply
import IavlStore.Multi.Catchup
import IavlStore.Multi.Coherence
import IavlStore.Multi.Contents
import IavlStore.Multi.EveryTree
import IavlStore.Multi.MultiTree
import IavlStore.Multi.Snapshot
import IavlStore.Multi.StateSync
import IavlStore.Multi.UpgradeOrder
import IavlStore.Multi.Upgrades
import IavlStore.Multi.Wal
import IavlStore.Persist.Counters
import IavlStore.Persist.Export
import IavlStore.Persist.Import
import IavlStore.Persist.ImportFailure
import IavlStore.Persist.Layout
import IavlStore.Persist.Lifetime
import IavlStore.Persist.Mixed
import IavlStore.Persist.Placed
import IavlStore.Persist.RoundTrip
import IavlStore.Persist.Writer
import IavlStore.Proto.Log
import IavlStore.Proto.Messages
import IavlStore.Proto.RoundTrip
import IavlStore.Rootmulti.Backfill
import IavlStore.Rootmulti.EveryTree
import IavlStore.Rootmulti.History
import IavlStore.Rootmulti.Provable
import IavlStore.Rootmulti.Query
import IavlStore.Rootmulti.QueryCache
import IavlStore.Rootmulti.Recovery
import IavlStore.Rootmulti.Replica
import IavlStore.Rootmulti.Restart
import IavlStore.Rootmulti.Restore
import IavlStore.Rootmulti.Snapshots
import IavlStore.Rootmulti.Store
import IavlStore.Rootmulti.Window
import IavlStore.Rootmulti.WorkingHash
import IavlStore.Streaming.Agreement
import IavlStore.Streaming.Follows
import IavlStore.Streaming.Listeners
import IavlStore.Streaming.Node
import IavlStore.Tree.Balance
import IavlStore.Tree.Binding
import IavlStore.Tree.Hash
import IavlStore.Tree.Lookup
import IavlStore.Tree.Neighbours
import IavlStore.Tree.Node
import IavlStore.Tree.Order
import IavlStore.Tree.Proofs
import IavlStore.Tree.Values
import IavlStore.VersionDb.FixData
import IavlStore.VersionDb.Import
import IavlStore.VersionDb.Ingest
import IavlStore.VersionDb.Iterator
import IavlStore.VersionDb.Latest
import IavlStore.VersionDb.Repair
import IavlStore.VersionDb.Restore
import IavlStore.VersionDb.Store
