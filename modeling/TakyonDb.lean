import TakyonDb.AllocatorSteps
import TakyonDb.Allocators
import TakyonDb.Art.Alloc
import TakyonDb.Art.Calls
import TakyonDb.Art.Convert
import TakyonDb.Art.Delete
import TakyonDb.Art.Demand
import TakyonDb.Art.Edit
import TakyonDb.Art.Endings
import TakyonDb.Art.Everywhere
import TakyonDb.Art.Heap
import TakyonDb.Art.History
import TakyonDb.Art.Index
import TakyonDb.Art.Indexed
import TakyonDb.Art.InsertCall
import TakyonDb.Art.InsertMap
import TakyonDb.Art.InsertRun
import TakyonDb.Art.InsertStep
import TakyonDb.Art.Inserts
import TakyonDb.Art.Nodes
import TakyonDb.Art.Placement
import TakyonDb.Art.Rebuild
import TakyonDb.Art.Region
import TakyonDb.Art.Removal
import TakyonDb.Art.RemoveRun
import TakyonDb.Art.Removes
import TakyonDb.Art.Scan
import TakyonDb.Art.ScanEntries
import TakyonDb.Art.Scans
import TakyonDb.Art.Search
import TakyonDb.Art.Shrink
import TakyonDb.Art.Split
import TakyonDb.Art.Stored
import TakyonDb.Art.Tree
import TakyonDb.Barrier
import TakyonDb.CatalogAgreement
import TakyonDb.CatalogBytes
import TakyonDb.CatalogRecord
import TakyonDb.CatalogRoundTrip
import TakyonDb.ClientLayout
import TakyonDb.Column
import TakyonDb.Config
import TakyonDb.Connect
import TakyonDb.DefaultRegions
import TakyonDb.Delta
import TakyonDb.Entries
import TakyonDb.Entry
import TakyonDb.EntryFiles
import TakyonDb.Exports
import TakyonDb.ExportsLog
import TakyonDb.Flusher
import TakyonDb.FlusherLoop
import TakyonDb.Framing
import TakyonDb.IndexLog
import TakyonDb.IndexRecovery
import TakyonDb.InsertFailure
import TakyonDb.Layout
import TakyonDb.LayoutSafety
import TakyonDb.Lib.Blocks
import TakyonDb.Lib.Bump
import TakyonDb.Lib.Bytes
import TakyonDb.Lib.Checked
import TakyonDb.Lib.Crc32
import TakyonDb.Lib.Digits
import TakyonDb.Lib.Extents
import TakyonDb.Lib.Frontier
import TakyonDb.Lib.JsBits
import TakyonDb.Lib.JsString
import TakyonDb.Lib.Latest
import TakyonDb.Lib.LoopOrder
import TakyonDb.Lib.Memory
import TakyonDb.Lib.OrderedMap
import TakyonDb.Lib.Outcome
import TakyonDb.Lib.RegExp
import TakyonDb.Lib.Separated
import TakyonDb.Lib.Slices
import TakyonDb.Lib.StableSort
import TakyonDb.Lib.SwapRemove
import TakyonDb.Lib.Transition
import TakyonDb.Lib.Updates
import TakyonDb.Lib.Utf8
import TakyonDb.Lib.Walk
import TakyonDb.Lib.Writes
import TakyonDb.Lives
import TakyonDb.LogFiles
import TakyonDb.Packing
import TakyonDb.PadHex
import TakyonDb.RecordCrc
import TakyonDb.Recovery
import TakyonDb.Refusal
import TakyonDb.Relational.Constraints
import TakyonDb.Relational.Executor
import TakyonDb.Relational.Filter
import TakyonDb.Relational.Join
import TakyonDb.Relational.Pushdown
import TakyonDb.Relational.Query
import TakyonDb.Relational.Row
import TakyonDb.Relational.Schema
import TakyonDb.Relational.Sql
import TakyonDb.Relational.SqlInsert
import TakyonDb.Relational.SqlLiteral
import TakyonDb.Relational.Table
import TakyonDb.Relational.Transaction
import TakyonDb.Replay
import TakyonDb.ReplayBuffer
import TakyonDb.Restart
import TakyonDb.RingBuffer
import TakyonDb.RoundTrip
import TakyonDb.ScrubFallback
import TakyonDb.SecondaryNative
import TakyonDb.SecondaryRange
import TakyonDb.Sectors
import TakyonDb.Segments
import TakyonDb.Shutdown
import TakyonDb.Snapshot
import TakyonDb.SnapshotLoad
import TakyonDb.SnapshotSafety
import TakyonDb.StringAlloc
import TakyonDb.StringField
import TakyonDb.Vacuum
import TakyonDb.VacuumCollect
import TakyonDb.VacuumLog
import TakyonDb.VacuumRecovery
import TakyonDb.VacuumRuns
import TakyonDb.VacuumSafety
import TakyonDb.Validation
import TakyonDb.Wal
import TakyonDb.WalSpec
