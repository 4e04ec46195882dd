import EveDB.Library.LittleEndian
import EveDB.Library.TornLog
import EveDB.Library.SortedMap
import EveDB.Library.Guarded
import EveDB.Error
import EveDB.Checksum
import EveDB.Codec
import EveDB.Frame
import EveDB.Model.Schema
import EveDB.Model.TableCodec
import EveDB.Manifest
import EveDB.Manifest.Codec
import EveDB.Recovery.Directory
import EveDB.Recovery.Transport
import EveDB.Recovery.System
import EveDB.Recovery.Log
import EveDB.Recovery.LogOps
import EveDB.Recovery.Open
import EveDB.Recovery.Invariant
import EveDB.Recovery.Stored
import EveDB.Recovery.Writes
import EveDB.Recovery.Preservation
import EveDB.Recovery.Safety
import EveDB.Recovery.Durability
import EveDB.Shared.Coordinator
import EveDB.Shared.Validation
import EveDB.Shared.System
import EveDB.Shared.Conflicts
import EveDB.OrderedMap
import EveDB.OrderedMap.Entries
import EveDB.OrderedMap.Reference
import EveDB.Shared.Tickets
import EveDB.Shared.Resolution
import EveDB.Shared.Winners
import EveDB.Model.Catalog
import EveDB.Model.Evolution
import EveDB.Model.Fields
import EveDB.Model.Operation
import EveDB.Store.Data
import EveDB.Store.Resources
import EveDB.Store.Checkpoint
import EveDB.Store.History
import EveDB.Store.Options
import EveDB.Store.Staging
import EveDB.Store.Steps
import EveDB.Store.Batches
import EveDB.Store.Replay
import EveDB.Store.Database
import EveDB.Store.Transaction
import EveDB.Store.Aborted
import EveDB.Store.Reopen
import EveDB.Store.Sizes
import EveDB.Store.Commit
import EveDB.Store.Groups
import EveDB.Store.Singles
import EveDB.Store.Edits
import EveDB.Store.Ordered
import EveDB.Store.Life
import EveDB.Store.GroupCommit
import EveDB.Library.Buffer
import EveDB.Storage.Stream
import EveDB.Storage.Page
import EveDB.Library.Ascending
import EveDB.Storage.Slots
import EveDB.Storage.Node
import EveDB.Library.Chunks
import EveDB.Storage.IndexFile
import EveDB.Storage.IndexPages
import EveDB.Storage.IndexTree
import EveDB.Storage.BulkBuilt
import EveDB.Library.Replaced
import EveDB.Storage.Damage
import EveDB.Builder.Slots
import EveDB.Library.Blocks
import EveDB.Builder.Indexes
import EveDB.Builder.Routing
import EveDB.Builder.Deliveries
import EveDB.Builder.Delivered
import EveDB.Builder.Plan
import EveDB.Builder.Walk
import EveDB.Builder.Collection
import EveDB.Store.Visits
import EveDB.Store.Cursor
import EveDB.Store.CursorRuns
import EveDB.Storage.Heap
import EveDB.Storage.HeapFiles
import EveDB.Storage.HeapReads
import EveDB.Store.Records
import EveDB.Storage.Checked
import EveDB.Store.Overlay
import EveDB.Store.Scans
import EveDB.Store.Counter
import EveDB.Store.Exclusive
import EveDB.Builder.Segments
import EveDB.Builder.History
import EveDB.Store.Admission
import EveDB.Storage.PageCache
import EveDB.Store.Readable
import EveDB.Builder.Exact
import EveDB.Store.Catalogs
import EveDB.Store.Decoded
import EveDB.Store.States
import EveDB.Running.System
import EveDB.Running.Orders
import EveDB.Running.Commits
import EveDB.Running.Recovered
import EveDB.Running.Sound
import EveDB.Running.Counters
import EveDB.Running.Collected
import EveDB.Running.Files
import EveDB.Running.Bindings
import EveDB.Running.Formed
import EveDB.Running.Contents
import EveDB.Running.Restored
