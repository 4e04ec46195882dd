import EveDB.Model.TableCodec

/-!
# Checkpoint manifests

A checkpoint root (`snapshot.rs`, `partitions.rs`): the catalog, the generations
whose files it references, the index partitions, the files with their sizes and
checksums, and the occupancy counters. A root is stored as a frame of kind 1 in
the write-ahead log and of kind 4 in its catalog file.

`Root.decode` cross-checks the tables of the manifest against each other; what it
accepts is the subject of `EveDB.Manifest.Codec`.
-/

namespace EveDB

open Std

/-- The physical identity of one checkpoint file: kind 0 holds current states, 1
bases, 2 snapshots, 3 to 5 the primary, history and snapshot indexes, 6 events. -/
structure FileId where
  table : ℕ
  generation : ℕ
  kind : ℕ
  segment : ℕ
  deriving DecidableEq, Repr

/-- Files are ordered by table, generation, kind and segment. -/
def FileId.key (f : FileId) : ℕ × ℕ × ℕ × ℕ := (f.table, f.generation, f.kind, f.segment)

theorem FileId.key_injective : Function.Injective FileId.key := by
  rintro ⟨⟩ ⟨⟩ h
  simpa [FileId.key] using h

instance : Ord FileId := ⟨compareOn FileId.key⟩

instance : TransOrd FileId := inferInstanceAs (TransCmp (compareOn FileId.key))

instance : LawfulEqOrd FileId := SortedMap.lawfulEqCmp_compareOn FileId.key_injective

/-- A file a manifest references, with its size and checksum. -/
structure FileInfo where
  generation : ℕ
  table : ℕ
  kind : ℕ
  segment : ℕ
  size : ℕ
  crc : ℕ
  deriving DecidableEq, Repr

/-- What names the file. -/
def FileInfo.id (f : FileInfo) : FileId := ⟨f.table, f.generation, f.kind, f.segment⟩

/-- A generation a manifest references, with the sequence stamped on its pages. -/
structure GenerationInfo where
  generation : ℕ
  lsn : ℕ
  deriving DecidableEq, Repr

/-- How many entities one table left in one generation, and how many died since. -/
structure Occupancy where
  entities : ℕ
  dead : ℕ
  deriving DecidableEq, Repr

/-- An index key. -/
abbrev Key := ℕ × ℕ

/-- What an index entry holds. -/
abbrev IndexValue := ℕ × ℕ

/-- A table, an index kind, and the lower end of a bucket. -/
abbrev Route := ℕ × ℕ × Key

/-- The width of a partition bucket. -/
def width : ℕ := 1024

/-- The bucket of a key: entity ranges for the primary index, version ranges of one
entity for the others. -/
def bucket (kind : ℕ) (key : Key) : Key :=
  if kind = 3 then (key.1 / width * width, 0) else (key.1, key.2 / width * width)

/-- The largest key of a bucket. -/
def bucketEnd (kind : ℕ) (lower : Key) : Key :=
  if kind = 3 then (saturatingAdd lower.1 (width - 1), maxU64)
  else (lower.1, saturatingAdd lower.2 (width - 1))

/-- One index partition: a tree inside an index file. -/
structure Partition where
  file : FileId
  lsn : ℕ
  /-- The page the tree starts at. -/
  base : ℕ
  first : Key
  last : Key
  /-- Slot written in the primary entries ↦ slot in this manifest. -/
  slots : BTreeMap ℕ
  dependencies : SortedSet FileId

/-- The number of generation slots of a manifest. -/
def maxSlots : ℕ := 256

/-- The size of a page. -/
def pageSize : ℕ := 8192

/-- A checkpoint root. -/
structure Root where
  generation : ℕ
  lsn : ℕ
  catalog : BTreeMap Table
  /-- Referenced generations in ascending order; the slot of a locator indexes this. -/
  generations : List GenerationInfo
  files : List FileInfo
  partitions : SortedMap Route Partition
  historyGenerations : BTreeMap ℕ
  historyCompacted : Bool
  /-- Live and superseded entity counts per table and generation slot. -/
  occupancy : SortedMap (ℕ × ℕ) Occupancy

namespace Root

/-- The root of a new database. -/
def empty : Root where
  generation := 0
  lsn := 0
  catalog := ∅
  generations := [⟨0, 0⟩]
  files := []
  partitions := ∅
  historyGenerations := ∅
  historyCompacted := true
  occupancy := ∅

/-- The physical identity of every file the manifest references. -/
def fileIds (root : Root) : List FileId := root.files.map FileInfo.id

end Root

/-! ### Encoding -/

/-- The bytes of a generation entry. -/
def encodeGeneration (g : GenerationInfo) : Bytes := Encoder.u64 g.generation ++ Encoder.u64 g.lsn

/-- The bytes of a slot translation. -/
def encodeSlot (slot : ℕ × ℕ) : Bytes := Encoder.u8 slot.1 ++ Encoder.u8 slot.2

/-- The bytes of a dependency. -/
def encodeFileId (f : FileId) : Bytes :=
  Encoder.u64 f.table ++ (Encoder.u64 f.generation ++ (Encoder.u8 f.kind ++ Encoder.u64 f.segment))

/-- The bytes of a partition behind its route. -/
def encodePartition (entry : Route × Partition) : Bytes :=
  let ((table, kind, lower), part) := entry
  Encoder.u64 table ++ (Encoder.u8 kind ++ (Encoder.u64 lower.1 ++ (Encoder.u64 lower.2 ++
    (Encoder.u64 part.file.generation ++ (Encoder.u64 part.file.segment ++
    (Encoder.u64 part.lsn ++ (Encoder.u64 part.base ++
    (Encoder.u64 part.first.1 ++ (Encoder.u64 part.first.2 ++
    (Encoder.u64 part.last.1 ++ (Encoder.u64 part.last.2 ++
    (Encoder.list encodeSlot part.slots.toList ++
    Encoder.list encodeFileId part.dependencies.toList))))))))))))

/-- The bytes of a history generation. -/
def encodeHistoryGeneration (entry : ℕ × ℕ) : Bytes := Encoder.u64 entry.1 ++ Encoder.u64 entry.2

/-- The bytes of a file reference. -/
def encodeFileInfo (f : FileInfo) : Bytes :=
  Encoder.u64 f.generation ++ (Encoder.u64 f.table ++ (Encoder.u8 f.kind ++
    (Encoder.u64 f.segment ++ (Encoder.u64 f.size ++ Encoder.u32 f.crc))))

/-- The bytes of an occupancy counter. -/
def encodeOccupancy (entry : (ℕ × ℕ) × Occupancy) : Bytes :=
  Encoder.u64 entry.1.1 ++ (Encoder.u8 entry.1.2 ++
    (Encoder.u64 entry.2.entities ++ Encoder.u64 entry.2.dead))

/-- The bytes of a manifest. -/
def Root.encode (root : Root) : Bytes :=
  Encoder.u64 root.generation ++ (Encoder.u64 root.lsn ++
    (Encoder.list (fun entry => encodeTable entry.2) root.catalog.toList ++
    (Encoder.list encodeGeneration root.generations ++
    (Encoder.list encodePartition root.partitions.toList ++
    (Encoder.bool root.historyCompacted ++
    (Encoder.list encodeHistoryGeneration root.historyGenerations.toList ++
    (Encoder.list encodeFileInfo root.files ++
    Encoder.list encodeOccupancy root.occupancy.toList)))))))

/-! ### Decoding -/

/-- Reads a table into the catalog and the set of names. -/
def decodeCatalogEntry (acc : List String × BTreeMap Table) :
    Decoder (List String × BTreeMap Table) := do
  let table ← decodeTable
  if table.name ∈ acc.1 ∨ table.id ∈ acc.2 then Decoder.fail "duplicate table"
  else return (table.name :: acc.1, acc.2.insert table.id table)

/-- Reads the next generation of the ascending list. -/
def decodeGeneration (generations : List GenerationInfo) : Decoder (List GenerationInfo) := do
  let generation ← Decoder.u64
  let lsn ← Decoder.u64
  if ∃ previous ∈ generations.getLast?, generation ≤ previous.generation then
    Decoder.fail "unordered generation list"
  else return generations ++ [⟨generation, lsn⟩]

/-- Reads one slot translation of a partition. -/
def decodeSlot (bound : ℕ) (slots : BTreeMap ℕ) : Decoder (BTreeMap ℕ) := do
  let old ← Decoder.u8
  let new ← Decoder.u8
  if bound ≤ new ∨ old ∈ slots then Decoder.fail "invalid partition slot mapping"
  else return slots.insert old new

/-- Reads one dependency of a partition. -/
def decodeDependency (table : ℕ) (dependencies : SortedSet FileId) :
    Decoder (SortedSet FileId) := do
  let owner ← Decoder.u64
  let generation ← Decoder.u64
  let kind ← Decoder.u8
  let segment ← Decoder.u64
  let file : FileId := ⟨owner, generation, kind, segment⟩
  if owner ≠ table ∨ ¬ (kind = 2 ∨ kind = 6) ∨ file ∈ dependencies then
    Decoder.fail "invalid partition dependency"
  else return dependencies.insert file

/-- What the partitions read so far amount to: the map, the index files, and the
roots of the trees. -/
structure PartitionTable where
  partitions : SortedMap Route Partition
  indexFiles : SortedSet FileId
  indexRoots : List (FileId × ℕ)

/-- Reads one partition and checks it against the generations and the catalog. -/
def decodePartition (generation lsn : ℕ) (catalog : BTreeMap Table)
    (generations : List GenerationInfo) (acc : PartitionTable) : Decoder PartitionTable := do
  let table ← Decoder.u64
  let kind ← Decoder.u8
  let lower0 ← Decoder.u64
  let lower1 ← Decoder.u64
  let fileGeneration ← Decoder.u64
  let segment ← Decoder.u64
  let file : FileId := ⟨table, fileGeneration, kind, segment⟩
  let sequence ← Decoder.u64
  let base ← Decoder.u64
  let first0 ← Decoder.u64
  let first1 ← Decoder.u64
  let last0 ← Decoder.u64
  let last1 ← Decoder.u64
  let slots ← Decoder.counted 2 (decodeSlot generations.length) ∅
  let dependencies ← Decoder.counted 25 (decodeDependency table) ∅
  if table ∉ catalog ∨ ¬ (3 ≤ kind ∧ kind ≤ 5) ∨ generation < file.generation ∨
      lsn < sequence ∨ compare (first0, first1) (last0, last1) = .gt ∨
      bucket kind (first0, first1) ≠ (lower0, lower1) ∨
      bucket kind (last0, last1) ≠ (lower0, lower1) ∨
      (kind ≠ 3 ∧ ¬ slots.isEmpty) ∨ (kind = 3 ∧ slots.isEmpty) ∨
      (file, base) ∈ acc.indexRoots then
    Decoder.fail "invalid index partition"
  else if (table, kind, (lower0, lower1)) ∈ acc.partitions then
    Decoder.fail "duplicate index partition route"
  else
    let part : Partition :=
      { file, lsn := sequence, base, first := (first0, first1), last := (last0, last1),
        slots, dependencies }
    return { partitions := acc.partitions.insert (table, kind, (lower0, lower1)) part
             indexFiles := acc.indexFiles.insert file
             indexRoots := (file, base) :: acc.indexRoots }

/-- Reads one history generation. -/
def decodeHistoryGeneration (generation lsn : ℕ) (acc : BTreeMap ℕ) :
    Decoder (BTreeMap ℕ) := do
  let number ← Decoder.u64
  let sequence ← Decoder.u64
  if generation < number ∨ lsn < sequence ∨ number ∈ acc then
    Decoder.fail "invalid history generation"
  else return acc.insert number sequence

/-- Reads one file reference and checks that its generation is listed. -/
def decodeFileInfo (catalog : BTreeMap Table) (generations : List GenerationInfo)
    (indexFiles : SortedSet FileId) (historyGenerations : BTreeMap ℕ)
    (files : List FileInfo) : Decoder (List FileInfo) := do
  let generation ← Decoder.u64
  let table ← Decoder.u64
  let kind ← Decoder.u8
  let segment ← Decoder.u64
  let size ← Decoder.u64
  let crc ← Decoder.u32
  let file : FileInfo := { generation, table, kind, segment, size, crc }
  if table ∉ catalog ∨ 6 < kind ∨ (kind < 3 ∧ segment ≠ 0) ∨
      (if kind = 2 ∨ kind = 6 then generation ∉ historyGenerations
        else if 3 ≤ kind ∧ kind ≤ 5 then file.id ∉ indexFiles
        else ¬ generations.any fun entry => entry.generation = generation) ∨
      file.id ∈ files.map FileInfo.id then
    Decoder.fail "invalid checkpoint file reference"
  else return files ++ [file]

/-- Checks that the files of every partition are listed. -/
def checkPartitions (files : List FileInfo) : List Partition → Result Unit
  | [] => .ok ()
  | part :: parts =>
    if ¬ files.any (fun info => info.id = part.file ∧ part.base < info.size / pageSize) then
      corrupt "partition root outside index file"
    else if (part.file :: part.dependencies.toList).any (· ∉ files.map FileInfo.id) then
      corrupt "incomplete partition manifest"
    else checkPartitions files parts

/-- Reads one occupancy counter. -/
def decodeOccupancy (catalog : BTreeMap Table) (slots : ℕ)
    (acc : SortedMap (ℕ × ℕ) Occupancy) : Decoder (SortedMap (ℕ × ℕ) Occupancy) := do
  let table ← Decoder.u64
  let slot ← Decoder.u8
  let entities ← Decoder.u64
  let dead ← Decoder.u64
  if table ∉ catalog ∨ slots ≤ slot ∨ entities < dead ∨ (table, slot) ∈ acc then
    Decoder.fail "invalid generation occupancy"
  else return acc.insert (table, slot) ⟨entities, dead⟩

namespace Root

/-- Reads a manifest. -/
def decoder : Decoder Root := do
  let generation ← Decoder.u64
  let lsn ← Decoder.u64
  let (_, catalog) ← Decoder.counted 25 decodeCatalogEntry ([], ∅)
  let generations ← Decoder.counted 16 decodeGeneration []
  if maxSlots < generations.length ∨
      generations.getLast?.map GenerationInfo.generation ≠ some generation then
    Decoder.fail "invalid generation list"
  else do
    let table ← Decoder.counted 105 (decodePartition generation lsn catalog generations)
      ⟨∅, ∅, []⟩
    let historyCompacted ← Decoder.bool "invalid history compaction flag"
    let historyGenerations ← Decoder.counted 16 (decodeHistoryGeneration generation lsn) ∅
    let files ← Decoder.counted 37
      (decodeFileInfo catalog generations table.indexFiles historyGenerations) []
    StateT.lift (checkPartitions files (table.partitions.toList.map Prod.snd))
    let occupancy ← Decoder.counted 25 (decodeOccupancy catalog generations.length) ∅
    return { generation, lsn, catalog, generations, files, partitions := table.partitions,
             historyGenerations, historyCompacted, occupancy }

/-- Decodes a manifest. -/
def decode (data : Bytes) : Result Root := Decoder.decode decoder data

end Root

end EveDB
