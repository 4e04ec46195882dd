import EveDB.Frame
import EveDB.Manifest

/-!
# The data directory and its recovery

A data directory holds numbered write-ahead-log segments, numbered catalog files
and the table files of the checkpoints. `openWithOptions` is the recovery path of
`Database::open_with_options`, on a directory that has been initialized: it reads
every segment once to collect the checkpoint roots and the active segment, picks
the newest root whose files verify, and reads the segments from that root's
generation on a second time to replay the transactions the root does not contain.

What replaying one transaction does to the view is the business of the engine
above the log, an `Engine` here: the manifest alone gives a view (`Engine.load`),
and the recovery transaction takes it on (`Engine.replay`).
-/

namespace EveDB

/-- A write-ahead-log segment. -/
structure Segment where
  number : ℕ
  bytes : Bytes
  /-- How many of its bytes a sync is known to have covered. -/
  durable : ℕ

/-- A data directory. -/
structure Directory where
  control : Bytes
  /-- The files of `wal/`, in the order of their numbers. -/
  segments : List Segment
  /-- The numbers of the files of `catalog/`, ascending. -/
  catalogs : List ℕ
  /-- The files under `tables/`, with the sizes and checksums they have on disk. -/
  tables : List FileInfo

/-- `EVEDB005`. -/
def controlFormat : Bytes := [69, 86, 69, 68, 66, 48, 48, 53]

/-- What is rebuilt on recovery. -/
structure Engine where
  /-- A committed view. -/
  View : Type
  /-- The view of a manifest with an empty overlay. -/
  load : Root → View
  /-- Runs the operations of one log record in a recovery transaction and publishes
  it with the sequence of the record. -/
  replay : View → ℕ → Bytes → Result View

/-! ### Pass one: the roots -/

/-- What the first pass has collected. -/
structure Survey where
  /-- No record of the current segment has been read yet. -/
  first : Bool
  /-- The last segment that holds a complete record. -/
  activeGeneration : Option ℕ
  roots : List Root

/-- One record of the first pass. -/
def surveyRecord (number : ℕ) (s : Survey) (record : Frame) : Result Survey :=
  if s.first ∧ record.kind ≠ 1 then corrupt "WAL segment lacks its checkpoint header"
  else
    let s := { s with first := false, activeGeneration := some number }
    if record.kind = 1 then do
      let root ← Root.decode record.payload
      if number < root.generation ∨ root.lsn ≠ record.lsn then
        corrupt "checkpoint/WAL identity mismatch"
      else return { s with roots := s.roots ++ [root] }
    else if record.kind ≠ 2 then corrupt "unexpected WAL record"
    else return s

/-- Feeds the records of a segment to `body`, from the first byte of `data` on. -/
def readRecords {σ : Type} (body : σ → Frame → Result σ) (s : σ) (data : Bytes) : Result σ :=
  Prod.fst <$> TornLog.scan Frame.format body (data.length + 1) s data

/-- One segment of the first pass. -/
def surveySegment (s : Survey) (segment : Segment) : Result Survey :=
  readRecords (surveyRecord segment.number) { s with first := true } segment.bytes

/-- The first pass. -/
def survey (segments : List Segment) : Result Survey :=
  segments.foldlM surveySegment { first := true, activeGeneration := none, roots := [] }

/-! ### The root -/

/-- Drops a root that follows one of the same generation. -/
def dedupByGeneration : List Root → List Root
  | [] => []
  | root :: roots =>
    root :: (dedupByGeneration roots).dropWhile fun next => next.generation = root.generation

/-- Compares every referenced file with what is on disk. -/
def verifyFiles (tables : List FileInfo) : List FileInfo → Result Unit
  | [] => .ok ()
  | file :: files =>
    match tables.find? fun found => found.id = file.id with
    | none => .error (.io "No such file or directory (os error 2)")
    | some found =>
      if found.size ≠ file.size ∨ found.crc ≠ file.crc then
        corrupt "checkpoint file checksum mismatch"
      else verifyFiles tables files

/-- The first root, newest first, whose files verify. -/
def selectRoot (tables : List FileInfo) : Option Error → List Root → Result Root
  | lastError, [] => .error (lastError.getD (.corrupt "no complete checkpoint"))
  | _, root :: roots =>
    match verifyFiles tables root.files with
    | .ok () => .ok root
    | .error e => selectRoot tables (some e) roots

/-- Sorts the roots by generation, keeps one of each, and picks the newest good one. -/
def newestRoot (tables : List FileInfo) (roots : List Root) : Result Root :=
  selectRoot tables none
    (dedupByGeneration (roots.mergeSort fun a b => a.generation ≤ b.generation)).reverse

/-! ### Pass two: the transactions -/

variable (E : Engine)

/-- The database while its log is replayed. -/
structure Replay where
  view : E.View
  lsn : ℕ
  walBytes : ℕ
  /-- The end of the last complete record of the current segment. -/
  completeEnd : ℕ
  /-- The end of the last complete record of the active segment. -/
  activeEnd : ℕ
  /-- The transactions replayed so far, with their sequences. -/
  replayed : List (ℕ × Bytes)

variable {E}

/-- One record of the second pass, behind the header. -/
def replayRecord (root : Root) (s : Replay E) (record : Frame) : Result (Replay E) := do
  let s' := { s with completeEnd := s.completeEnd + (40 + record.payload.length) }
  if record.kind = 1 then return s'
  else if record.kind ≠ 2 then corrupt "unexpected record in transaction WAL"
  else if root.lsn < record.lsn then
    if checkedAdd s.lsn 1 ≠ some record.lsn then
      corrupt "gap or duplicate in transaction sequence"
    else
      let view ← E.replay s.view record.lsn record.payload
      return { s' with
        view
        lsn := record.lsn
        walBytes := saturatingAdd s.walBytes (40 + record.payload.length)
        replayed := s.replayed ++ [(record.lsn, record.payload)] }
  else return s'

/-- One segment of the second pass. -/
def replaySegment (root : Root) (active : ℕ) (s : Replay E) (segment : Segment) :
    Result (Replay E) :=
  if segment.number < root.generation ∨ active < segment.number then return s
  else do
    match ← Frame.read segment.bytes with
    | none => return s
    | some (header, rest) =>
      if header.kind ≠ 1 then corrupt "invalid WAL header"
      else
        let s ← readRecords (replayRecord root)
          { s with completeEnd := 40 + header.payload.length } rest
        if segment.number ≠ active ∧ s.completeEnd ≠ segment.bytes.length then
          corrupt "incomplete frame in a sealed WAL segment"
        else if segment.number = active then return { s with activeEnd := s.completeEnd }
        else return s

/-! ### Opening -/

/-- Cuts a segment to `length` bytes and syncs it, unless it has that length. -/
def Segment.setLen (length : ℕ) (segment : Segment) : Segment :=
  if segment.bytes.length ≠ length then
    { segment with bytes := segment.bytes.take length, durable := length }
  else segment

/-- Applies `f` to the segments numbered `n`. -/
def Directory.modify (dir : Directory) (n : ℕ) (f : Segment → Segment) : Directory :=
  { dir with segments := dir.segments.map fun s => if s.number = n then f s else s }

variable (E)

/-- An opened database. -/
structure Opened where
  dir : Directory
  root : Root
  /-- The segment new records go to. -/
  active : ℕ
  nextGeneration : ℕ
  view : E.View
  lsn : ℕ
  walBytes : ℕ
  replayed : List (ℕ × Bytes)

/-- **Recovery**: opens a directory, verifies the checkpoint files, and replays the
committed log records. -/
def openWithOptions (dir : Directory) : Result (Opened E) :=
  if dir.control ≠ controlFormat then corrupt "unsupported database control format"
  else
    match dir.segments.getLast? with
    | none => corrupt "missing recovery WAL"
    | some last => do
      let found ← survey dir.segments
      let root ← newestRoot dir.tables found.roots
      match found.activeGeneration with
      | none => corrupt "missing active WAL"
      | some active =>
        let nextGeneration := max (dir.catalogs.getLast?.elim 1 (saturatingAdd · 1))
          (saturatingAdd last.number 1)
        let s ← dir.segments.foldlM (replaySegment root active)
          { view := E.load root, lsn := root.lsn, walBytes := 0, completeEnd := 0,
            activeEnd := 0, replayed := [] }
        return { dir := dir.modify active (Segment.setLen s.activeEnd), root, active,
                 nextGeneration, view := s.view, lsn := s.lsn, walBytes := s.walBytes,
                 replayed := s.replayed }

end EveDB
