import EveDB.Builder.Opened
import EveDB.Builder.Walk

/-!
# Writing a table

The whole of a table writer (`TableWriter` in `snapshot.rs`): heap files for current states, bases
and snapshots besides the history segments and the indexes, and the files of earlier manifests that
the history goes on in (`FullTableWriter.remember`).

An entity that stays where it is gets an entry and its history back (`FullTableWriter.carry`); one
that is written anew gets records of its own, what the manifest it was read from has of its history,
and what memory has behind it (`FullTableWriter.append`). History is taken over by whole partitions
where these lie within what is retained and nothing was added to them, and entry by entry elsewhere
(`FullTableWriter.copyPart`).
-/

namespace EveDB

open Std Store Index

/-- Appends a record to a heap file, as far as the directory holds it. -/
def HeapWriter.store (storage : Storage) (file : FileId) (bytes : Bytes) (w : HeapWriter) :
    Result (ℕ × HeapWriter) :=
  match (HeapWriter.append bytes).run w with
  | (.error e, _) => .error e
  | (.ok location, w) => do
    storage.write file w.file
    return (location, w)

/-- **A table writer**, whole. -/
structure FullTableWriter extends TableWriter where
  current : HeapWriter
  bases : HeapWriter
  snapshots : HeapWriter
  /-- The slot of the generation that is written. -/
  slot : ℕ
  /-- How many entities have been written anew. -/
  entities : ℕ
  /-- The files of earlier generations the history goes on in. -/
  reused : SortedMap FileId FileInfo
  historyGenerations : BTreeMap ℕ
  rewriteHistory : Bool
  rewriteIndexes : Bool

/-- What a table adds to a manifest, and to its directory. -/
structure TableOutput where
  files : List FileInfo
  entities : ℕ
  historyGenerations : BTreeMap ℕ
  partitions : SortedMap Route Partition
  written : List (FileId × Bytes)

/-- What a table writer is told. -/
structure TableOptions where
  generation : ℕ
  slot : ℕ
  lsn : ℕ
  segmentLimit : ℕ
  compress : Bool
  rewriteHistory : Bool

/-- Whether memory has something of a history between two versions. -/
def Store.EntityData.modifies (data : EntityData) (i : Fin 3) (lower upper : ℕ) : Bool :=
  if i = snapshotIndex then data.snapshots.keys.any fun version => lower ≤ version ∧ version ≤ upper
  else (data.committed.keys.any fun version => lower ≤ version ∧ version ≤ upper) ||
    data.events.any fun event => lower ≤ event.version ∧ event.version ≤ upper

namespace FullTableWriter

/-- A writer for a table. -/
def create (disk : Disk) (options : TableOptions) (table maxIndexPartitions : ℕ)
    (rewriteIndexes : Bool) : Result FullTableWriter := do
  [0, 1, 2].forM fun kind => disk.createNew ⟨table, options.generation, kind, 0⟩
  let w ← TableWriter.create disk table options.generation options.lsn options.segmentLimit
    options.compress maxIndexPartitions
  let heap := HeapWriter.create (UInt64.ofNat options.lsn)
  return { w with
    current := heap
    bases := heap
    snapshots := heap
    slot := options.slot
    entities := 0
    reused := ∅
    historyGenerations := (∅ : BTreeMap ℕ).insert options.generation options.lsn
    rewriteHistory := options.rewriteHistory
    rewriteIndexes }

variable (disk : Disk) (storage : Storage) (w : FullTableWriter)

/-- A heap file of the table. -/
def heapFile (kind : ℕ) : FileId := ⟨w.table, w.generation, kind, 0⟩

/-- Delivers to an index of the table. -/
def deliver (i : Fin 3) (d : Delivery) : Result FullTableWriter := do
  return { w with indexes := ← w.indexes.deliver disk i d }

/-- Notes that the history goes on in a file of an earlier manifest. -/
def remember (root : Root) (file : FileId) : Result FullTableWriter :=
  if file ∈ w.reused then .ok w
  else
    match root.files.find? fun info => info.id = file with
    | none => corrupt "history references an unlisted file"
    | some info =>
      match root.historyGenerations[file.generation]? with
      | none => corrupt "absent history sequence"
      | some sequence => .ok { w with
          reused := w.reused.insert file info
          historyGenerations := w.historyGenerations.insert file.generation sequence }

/-- Notes the files a partition refers to. -/
def rememberAll (root : Root) (part : Partition) : Result FullTableWriter :=
  part.dependencies.toList.foldlM (fun w file => w.remember root file) w

/-- Takes a partition over. -/
def carryPartition (root : Root) (slots : List (Option ℕ)) (i : Fin 3)
    (entry : Route × Partition) : Result FullTableWriter := do
  let part ← entry.2.carry slots
  let w ← w.rememberAll root part
  w.deliver disk i (.reuse root entry.1.2.2 part)

/-- The partitions of an index whose buckets lie between two keys, under their routes. -/
def partsBetween (root : Root) (table : ℕ) (i : Fin 3) (lower upper : Key) :
    List (Route × Partition) :=
  (root.partitionsOf table (Indexes.kind i)).filter fun entry =>
    toLex lower ≤ toLex entry.1.2.2 ∧ toLex entry.1.2.2 ≤ toLex upper

/-- Takes over the partitions of the history of some entities. -/
def carryPartitionHistory (root : Root) (lower upper : ℕ) (slots : List (Option ℕ)) :
    Result FullTableWriter :=
  [historyIndex, snapshotIndex].foldlM (fun w i =>
    (partsBetween root w.table i (lower, 0) (upper, maxU64)).foldlM (fun w entry =>
      w.carryPartition disk root slots i entry) w) w

/-- Stores a snapshot, and indexes it. -/
def appendSnapshot (id : ℕ) (state : Entity) : Result FullTableWriter := do
  let (location, snapshots) ← w.snapshots.store storage (w.heapFile 2) (encodeEntity state)
  deliver disk { w with snapshots } snapshotIndex
    (.entry (id, state.version) (w.generation, location) (some (w.heapFile 2)))

/-- Stores an event, and indexes it. -/
def appendEvent (id : ℕ) (event : Event) : Result FullTableWriter :=
  match (TableWriter.appendEvent disk id event).run w.toTableWriter with
  | (.ok (), base) => .ok { w with toTableWriter := base }
  | (.error e, _) => .error e

/-- Takes over an entry of a history index, or stores what it refers to anew. -/
def copyEntry (root : Checkpoint) (id : ℕ) (overrides : Option EntityData) (i : Fin 3)
    (entry : Result (Key × IndexValue)) : Reading FullTableWriter := do
  let (key, location) ← Guarded.lift entry
  if i = snapshotIndex then
    if overrides.any fun data => key.2 ∈ data.snapshots then return w
    else if w.rewriteHistory then do
      let state ← root.historyState w.table location id
      Guarded.lift (w.appendSnapshot disk storage id state)
    else do
      let file : FileId := ⟨w.table, location.1, 2, 0⟩
      let w ← Guarded.lift (w.remember root.manifest file)
      Guarded.lift (w.deliver disk i (.entry key location (some file)))
  else if w.rewriteHistory then do
    let (entityId, event, lsn) ← root.eventAt w.table location
    if entityId ≠ id ∨ event.version ≠ key.2 ∨ event.transaction ≠ lsn then
      Guarded.lift (corrupt "invalid collected event")
    else Guarded.lift (w.appendEvent disk id event)
  else do
    let file : FileId := ⟨w.table, location.1, 6, (splitEvent location.2).1⟩
    let w ← Guarded.lift (w.remember root.manifest file)
    Guarded.lift (w.deliver disk i (.entry key location (some file)))

/-- **Takes over a partition of a history**, whole where it can be, or entry by entry. -/
def copyPart (root : Checkpoint) (id first last : ℕ) (overrides : Option EntityData) (i : Fin 3)
    (entry : Route × Partition) : Reading FullTableWriter := do
  let (route, part) := entry
  let upper := (bucketEnd (Indexes.kind i) route.2.2).2
  let modified := overrides.any fun data => data.modifies i route.2.2.2 upper
  if ¬ w.rewriteHistory ∧ ¬ w.rewriteIndexes ∧ ¬ modified ∧ first ≤ part.first.2 ∧
      part.last.2 ≤ last then do
    let w ← Guarded.lift (w.rememberAll root.manifest part)
    Guarded.lift (w.deliver disk i (.reuse root.manifest route.2.2 part))
  else do
    let entries ← Guarded.lift (part.scan disk (id, first) (id, last))
    entries.foldlM (fun w entry => w.copyEntry disk storage root id overrides i entry) w

/-- Takes over what an index has of a history: snapshots from a base on, or the events behind it. -/
def copyKind (root : Checkpoint) (id base last : ℕ) (overrides : Option EntityData) (i : Fin 3) :
    Reading FullTableWriter :=
  if i = historyIndex ∧ last ≤ base then return w
  else
    let first := if i = historyIndex then base + 1 else base
    (partsBetween root.manifest w.table i (bucket (Indexes.kind i) (id, first))
      (bucket (Indexes.kind i) (id, last))).foldlM (fun w entry =>
        w.copyPart disk storage root id first last overrides i entry) w

/-- Takes over a history. -/
def copyHistory (root : Checkpoint) (id base last : ℕ) (overrides : Option EntityData) :
    Reading FullTableWriter :=
  [snapshotIndex, historyIndex].foldlM (fun w i =>
    w.copyKind disk storage root id base last overrides i) w

/-- **Takes an entity over**, whose records stay where they are. -/
def carry (root : Checkpoint) (id : ℕ) (value : IndexValue) : Reading FullTableWriter := do
  let w ← Guarded.lift (w.deliver disk primaryIndex (.entry (id, 0) value none))
  w.copyHistory disk storage root id 0 maxU64 none

/-- Stores the records of an entity, and indexes them. -/
def appendRecords (id : ℕ) (data : EntityData) : Result FullTableWriter := do
  let (currentAt, current) ← w.current.store storage (w.heapFile 0) (encodeEntity data.current)
  let (baseAt, bases) ← w.bases.store storage (w.heapFile 1) (encodeEntity data.base)
  let w' ← deliver disk { w with current, bases } primaryIndex
    (.entry (id, 0) (locate w.slot currentAt, locate w.slot baseAt) none)
  return { w' with entities := w'.entities + 1 }

/-- Takes over what the manifest an entity was read from has of its history. -/
def copyDisk (id : ℕ) (data : EntityData) : Reading FullTableWriter :=
  match data.disk with
  | none => return w
  | some source =>
    if data.base.version ≤ source.through then
      w.copyHistory disk storage source.root id data.base.version source.through (some data)
    else return w

/-- Stores what memory has of a history. -/
def appendMemory (id : ℕ) (data : EntityData) : Result FullTableWriter := do
  let kept := (data.snapshots.toList.filter fun entry => data.base.version ≤ entry.1).map Prod.snd
  let behind :=
    (data.committed.toList.filter fun entry => data.base.version < entry.1).map Prod.snd
  let w ← kept.foldlM (fun w state => w.appendSnapshot disk storage id state) w
  (behind ++ data.events).foldlM (fun w event => w.appendEvent disk id event) w

/-- **Writes an entity anew**, with its history. -/
def append (id : ℕ) (data : EntityData) : Reading FullTableWriter := do
  let w ← Guarded.lift (w.appendRecords disk storage id data)
  let w ← w.copyDisk disk storage id data
  Guarded.lift (w.appendMemory disk storage id data)

/-- The description of a file that was written. -/
def fileInfo (file : FileId × Bytes) : FileInfo where
  generation := file.1.generation
  table := file.1.table
  kind := file.1.kind
  segment := file.1.segment
  size := file.2.length
  crc := (crc32c file.2).toNat

/-- The heap files of the table, finished. -/
def heaps : List (FileId × Bytes) :=
  [(w.heapFile 0, w.current.finish), (w.heapFile 1, w.bases.finish),
    (w.heapFile 2, w.snapshots.finish)]

/-- Finishes a table. -/
def finish : Result TableOutput := do
  let (indexFiles, partitions, built) ← w.indexes.finish
  let written := built ++ w.heaps ++ w.segments
  written.forM fun file => storage.write file.1 file.2
  return {
    files := w.reused.toList.map Prod.snd ++ indexFiles ++ (w.heaps ++ w.segments).map fileInfo
    entities := w.entities
    historyGenerations := w.historyGenerations
    partitions
    written }

end FullTableWriter

end EveDB
