import EveDB.Builder.Slots
import EveDB.Storage.BulkBuilt

/-!
# Index partitions

The indexes of a table are cut into partitions, each an immutable tree in an index file
(`partitions.rs`). A checkpoint delivers the entries of each index in key order (`Indexes.append`)
and takes whole partitions over from an earlier manifest (`Indexes.reuse`); a partition that is
being built is finished when something else is delivered to its index (`Indexes.flush`). Reading
a manifest routes each query to the partitions that may answer it (`Root.lookupIndex`,
`Root.floorIndex`, `Root.scanIndex`).

The directory is what each file holds, if it is there (`Disk`). The three indexes of a table,
primary, events and snapshots, have the kinds 3 to 5 and are numbered from 0.
-/

namespace EveDB

open Std Index

/-- What the files of a directory hold. -/
abbrev Disk := FileId → Option Bytes

/-- A directory with more files. -/
def Disk.write (disk : Disk) (written : List (FileId × Bytes)) : Disk :=
  written.foldl (fun disk file => Function.update disk file.1 (some file.2)) disk

theorem Disk.write_of_ne {disk : Disk} {written : List (FileId × Bytes)} {file : FileId}
    (h : ∀ other ∈ written, other.1 ≠ file) : disk.write written file = disk file := by
  induction written generalizing disk with
  | nil => rfl
  | cons other written ih =>
    obtain ⟨hother, hwritten⟩ := List.forall_mem_cons.mp h
    rw [Disk.write, List.foldl_cons, ← Disk.write, ih hwritten, Function.update_of_ne hother.symm]

theorem Disk.write_of_mem {disk : Disk} {written : List (FileId × Bytes)}
    (hnodup : (written.map Prod.fst).Nodup) {file : FileId × Bytes} (h : file ∈ written) :
    disk.write written file.1 = some file.2 := by
  induction written generalizing disk with
  | nil => cases h
  | cons other written ih =>
    rw [List.map_cons, List.nodup_cons] at hnodup
    rw [Disk.write, List.foldl_cons, ← Disk.write]
    rcases List.mem_cons.mp h with rfl | h
    · rw [Disk.write_of_ne, Function.update_self]
      exact fun other hother heq => hnodup.1 (heq ▸ List.mem_map_of_mem hother)
    · exact ih hnodup.2 h

/-- The order of routes is transitive. -/
instance : TransOrd Route := inferInstance

/-! ### Building -/

/-- A partition that is being built. -/
structure Pending where
  writer : IndexWriter
  route : Route
  part : Partition

/-- What there is of one index: its open file, the page the next tree starts at, and the
partition that is being built. -/
structure Lane where
  handle : Option Bytes
  next : ℕ
  pending : Option Pending

/-- The indexes of one table. -/
structure Indexes where
  limit : ℕ
  table : ℕ
  generation : ℕ
  lsn : ℕ
  lanes : Fin 3 → Lane
  parts : SortedMap Route Partition
  files : SortedMap FileId FileInfo

/-- The index of the entities, which is the first of a table. -/
def primaryIndex : Fin 3 := ⟨0, Nat.succ_pos 2⟩

/-- The index of the snapshots, which is the last. -/
def snapshotIndex : Fin 3 := Fin.last 2

namespace Indexes

/-- Nothing has been built yet, and nothing is carried over. -/
def new (table generation lsn limit : ℕ) : Indexes where
  limit
  table
  generation
  lsn
  lanes _ := { handle := none, next := 0, pending := none }
  parts := ∅
  files := ∅

variable (ix : Indexes)

/-- The kind of an index. -/
def kind (i : Fin 3) : ℕ := i + 3

/-- The file the partitions of an index are built in. -/
def file (i : Fin 3) : FileId := ⟨ix.table, ix.generation, kind i, 0⟩

/-- What names the partition of an index that begins with a key. -/
def route (i : Fin 3) (lower : Key) : Route := (ix.table, kind i, lower)

/-- The partitions that are being built. -/
def pendingCount : ℕ := (List.finRange 3).countP fun i => (ix.lanes i).pending.isSome

/-- Refuses another partition when the manifest has as many as it may. -/
def admitPart : Result Unit :=
  if ix.limit ≤ ix.parts.size + ix.pendingCount then
    .error (.limitExceeded "index partitions" ix.limit)
  else .ok ()

/-- Finishes the partition that is being built. -/
def flush (i : Fin 3) : Result Indexes :=
  match (ix.lanes i).pending with
  | none => .ok ix
  | some pending =>
    let file := pending.writer.finishPart
    if pending.route ∈ ix.parts then corrupt "duplicate built partition"
    else .ok { ix with
      lanes := Function.update ix.lanes i
        { handle := some file, next := file.length / pageSize, pending := none }
      parts := ix.parts.insert pending.route pending.part }

/-- Adds an entry to the partition that is being built. -/
def push (i : Fin 3) (pending : Pending) (key : Key) (value : IndexValue)
    (dependency : Option FileId) : Result Indexes :=
  match pending.writer.append key value with
  | (.error e, _) => .error e
  | (.ok (), writer) => do
    let part ← pending.part.note key value dependency
    return { ix with
      lanes := Function.update ix.lanes i
        { ix.lanes i with pending := some { pending with writer, part } } }

/-- The description of a partition that begins with a key. -/
def fresh (i : Fin 3) (key : Key) : Partition where
  file := ix.file i
  lsn := ix.lsn
  base := (ix.lanes i).next
  first := key
  last := key
  slots := ∅
  dependencies := ∅

/-- Begins a partition at the end of the file of its index, which is created for the first. -/
def start (disk : Disk) (i : Fin 3) (key : Key) : Result Pending := do
  let handle ← match (ix.lanes i).handle with
    | some bytes => pure bytes
    | none =>
      if (disk (ix.file i)).isSome then .error (.io "File exists (os error 17)") else pure []
  return {
    writer := .fromFile handle ix.lsn (ix.lanes i).next
    route := ix.route i (bucket (kind i) key)
    part := ix.fresh i key }

/-- Delivers an entry to an index. -/
def append (disk : Disk) (i : Fin 3) (key : Key) (value : IndexValue)
    (dependency : Option FileId) : Result Indexes :=
  match (ix.lanes i).pending.filter (·.route = ix.route i (bucket (kind i) key)) with
  | some pending => ix.push i pending key value dependency
  | none => do
    let ix ← ix.flush i
    ix.admitPart
    if ix.route i (bucket (kind i) key) ∈ ix.parts then
      corrupt "append to sealed index partition"
    else
      let pending ← ix.start disk i key
      ix.push i pending key value dependency

/-- Takes a partition over from an earlier manifest. -/
def reuse (i : Fin 3) (lower : Key) (part : Partition) (root : Root) : Result Indexes := do
  let ix ← ix.flush i
  ix.admitPart
  match root.files.find? fun info => info.id = part.file with
  | none => corrupt "unlisted partition"
  | some info =>
    if ix.route i lower ∈ ix.parts then corrupt "duplicate reused partition"
    else return { ix with
      files := ix.files.insert info.id info
      parts := ix.parts.insert (ix.route i lower) part }

/-- The files that were built. -/
def built : List (FileId × Bytes) :=
  (List.finRange 3).filterMap fun i => (ix.lanes i).handle.map fun bytes => (ix.file i, bytes)

/-- Finishes every index, and returns the files of the manifest, its partitions, and what was
written. -/
def finish : Result (List FileInfo × SortedMap Route Partition × List (FileId × Bytes)) := do
  let ix ← ix.flush 0
  let ix ← ix.flush 1
  let ix ← ix.flush 2
  let files := ix.built.foldl (fun files written => files.insert written.1
    { generation := ix.generation, table := ix.table, kind := written.1.kind, segment := 0,
      size := written.2.length, crc := (crc32c written.2).toNat }) ix.files
  return (files.toList.map Prod.snd, ix.parts, ix.built)

end Indexes

/-! ### Reading -/

/-- Reads a file of the directory. -/
def Disk.read {α : Type} (disk : Disk) (file : FileId) (query : Bytes → Result α) : Result α :=
  match disk file with
  | some bytes => query bytes
  | none => .error (.io "No such file or directory (os error 2)")

/-- Translates the entry a query found. -/
def Partition.translateEntry (part : Partition) (entry : Key × IndexValue) :
    Result (Key × IndexValue) := do
  return (entry.1, ← part.translate entry.2)

namespace Root

variable (root : Root) (disk : Disk)

/-- The partitions of an index whose buckets lie between two keys. -/
def between (table kind : ℕ) (lower upper : Key) : List Partition :=
  (root.partitions.toList.filter fun entry => entry.1.1 = table ∧ entry.1.2.1 = kind ∧
    toLex lower ≤ toLex entry.1.2.2 ∧ toLex entry.1.2.2 ≤ toLex upper).map Prod.snd

/-- The entry of an index under a key. -/
def lookupIndex (table kind : ℕ) (key : Key) : Result (Option IndexValue) :=
  match root.partitions[((table, kind, bucket kind key) : Route)]? with
  | none => .ok none
  | some part => do
    match ← disk.read part.file fun file => lookupAt file part.lsn part.base key with
    | none => return none
    | some value => return some (← part.translate value)

/-- The first floor in a list of partitions. -/
def floorIn (key : Key) : List Partition → Result (Option (Key × IndexValue))
  | [] => .ok none
  | part :: parts => do
    match ← disk.read part.file fun file => floorAt file part.lsn part.base key with
    | some entry => return some (← part.translateEntry entry)
    | none => floorIn key parts

/-- The last entry of an index at or below a key. -/
def floorIndex (table kind : ℕ) (key : Key) : Result (Option (Key × IndexValue)) :=
  floorIn disk key (root.between table kind (0, 0) (bucket kind key)).reverse

end Root

/-- A scan on its way through partitions. -/
structure Scan where
  disk : Disk
  lower : Key
  upper : Key
  current : Option (Partition × IndexCursor)
  parts : List Partition

namespace Scan

/-- Enters partitions until one has something to return. -/
def enter (scan : Scan) : List Partition → Option (Result (Key × IndexValue)) × Scan
  | [] => (none, { scan with current := none, parts := [] })
  | part :: parts =>
    match scan.disk.read part.file fun file =>
        scanAt file part.lsn part.base scan.lower scan.upper with
    | .error e => (some (.error e), { scan with current := none, parts })
    | .ok cursor =>
      match cursor.next with
      | (some item, cursor) =>
        (some (item >>= part.translateEntry), { scan with current := some (part, cursor), parts })
      | (none, _) => scan.enter parts

/-- The next entry, if there is one. -/
def next (scan : Scan) : Option (Result (Key × IndexValue)) × Scan :=
  match scan.current with
  | none => scan.enter scan.parts
  | some (part, cursor) =>
    match cursor.next with
    | (some item, cursor) =>
      (some (item >>= part.translateEntry), { scan with current := some (part, cursor) })
    | (none, _) => scan.enter scan.parts

/-- What a scan returns when it is asked again and again. -/
def nth (scan : Scan) : ℕ → Option (Result (Key × IndexValue))
  | 0 => scan.next.1
  | n + 1 => scan.next.2.nth n

end Scan

/-- Begins a scan of the entries of an index between two keys. -/
def Root.scanIndex (root : Root) (disk : Disk) (table kind : ℕ) (lower upper : Key) : Scan where
  disk
  lower
  upper
  current := none
  parts :=
    if toLex upper < toLex lower then []
    else root.between table kind (bucket kind lower) (bucket kind upper)

end EveDB
