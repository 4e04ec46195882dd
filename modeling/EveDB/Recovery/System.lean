import EveDB.Recovery.Directory

/-!
# Runs of a database over its directory

The steps by which an owner of a data directory changes it, and the ways it can
stop: group commits, checkpoint capture with its rotation to a new log segment,
the files a build writes, installation, abandonment, cleanup, crashes and reopens.
Every write can fail after any number of bytes, and every sync can fail after all
of them; a failure poisons the handle (`CommitUnknown`, or a failed checkpoint) and
nothing more is written until the directory is reopened.

A crash keeps at least the bytes a sync has covered, and cuts the log segment
written last at any byte behind them; a cut at its full length is the death of the
process alone.

What the transactions mean is a `Semantics`: the state a view denotes, and what a
transaction makes of it.
-/

namespace EveDB

/-- The contents of a database, and how the views of an engine stand for them. -/
structure Semantics (E : Engine) where
  /-- What the database holds, whatever the view is made of. -/
  State : Type
  initial : State
  /-- What a committed transaction makes of the state, if it can be executed on it. -/
  exec : State → ℕ → Bytes → Option State
  /-- The view stands for the state. -/
  Denotes : E.View → State → Prop
  denotes_empty : Denotes (E.load Root.empty) initial
  denotes_unique : ∀ {v s s'}, Denotes v s → Denotes v s' → s = s'
  /-- Replay repeats what the transaction did. -/
  replay_denotes : ∀ {v s n p s'}, Denotes v s → exec s n p = some s' →
    ∃ v', E.replay v n p = .ok v' ∧ Denotes v' s'

/-- Executes transactions one after another; the first has sequence `n + 1`. -/
def Semantics.run {E : Engine} (S : Semantics E) : S.State → ℕ → List Bytes → Option S.State
  | s, _, [] => some s
  | s, n, p :: ps => (S.exec s (n + 1) p).bind fun s' => S.run s' (n + 1) ps

/-- The frames of transactions; the first has sequence `n + 1`. -/
def txFrames : ℕ → List Bytes → List Frame
  | _, [] => []
  | n, p :: ps => ⟨2, n + 1, p⟩ :: txFrames (n + 1) ps

/-- The transactions with their sequences; the first has sequence `n + 1`. -/
def numbered : ℕ → List Bytes → List (ℕ × Bytes)
  | _, [] => []
  | n, p :: ps => (n + 1, p) :: numbered (n + 1) ps

/-- The frame a root is published in. -/
def rootFrame (root : Root) : Frame := ⟨1, root.lsn, root.encode⟩

/-- The bytes of frames. -/
def frameBytes (frames : List Frame) : Bytes := Frame.format.encodeAll frames

variable {E : Engine} (S : Semantics E)

/-- A checkpoint between its capture and its installation. -/
structure CheckpointJob where
  generation : ℕ
  /-- The captured view: its sequence, and the state it denotes. -/
  lsn : ℕ
  state : S.State
  walFrontierBytes : ℕ
  /-- What the build has returned. -/
  built : Option Root

/-- An open database. -/
structure Handle where
  root : Root
  lsn : ℕ
  /-- The segment new records go to. -/
  active : ℕ
  nextGeneration : ℕ
  walBytes : ℕ
  /-- An I/O failure has left the outcome of a write open. -/
  poisoned : Bool
  /-- A checkpoint has been captured (`checkpoint_tail`). -/
  tail : Bool
  job : Option (CheckpointJob S)
  /-- The root replaced by the last checkpoint, while its cleanup runs. -/
  cleanup : Option Root
  /-- The root replaced by the last checkpoint. What was committed between its capture and its
  installation has its history in the files of this root still (`DiskHistory`). -/
  replaced : Option Root
  /-- The state the published view denotes. -/
  state : S.State

/-- A directory, its owner, and what has been promised about it. -/
structure System where
  dir : Directory
  /-- The log segment written last. -/
  writing : ℕ
  handle : Option (Handle S)
  /-- Every acknowledged transaction with its sequence. -/
  acked : List (ℕ × Bytes)
  /-- Every transaction ever handed to the log, with the sequence it was given. -/
  submitted : List (ℕ × Bytes)

/-- How a write to the log ends: all of it written and synced, or an I/O error after
`written` bytes, the last of them synced or not. -/
inductive WriteOutcome
  | ok
  | error (written : ℕ) (synced : Bool)

/-- The bytes that reached the file. -/
def WriteOutcome.written (o : WriteOutcome) (data : Bytes) : Bytes :=
  match o with
  | .ok => data
  | .error written _ => data.take written

/-- Whether the sync took effect; it comes after the last byte. -/
def WriteOutcome.synced (o : WriteOutcome) (data : Bytes) : Bool :=
  match o with
  | .ok => true
  | .error written synced => synced && data.length ≤ written

/-- A failed write poisons the handle. -/
def WriteOutcome.failed : WriteOutcome → Bool
  | .ok => false
  | .error _ _ => true

/-- Appends what a write left to a segment. -/
def Segment.append (o : WriteOutcome) (data : Bytes) (segment : Segment) : Segment :=
  let bytes := segment.bytes ++ o.written data
  { segment with bytes, durable := if o.synced data then bytes.length else segment.durable }

/-- Adds a new file to `wal/`. -/
def Directory.addSegment (dir : Directory) (segment : Segment) : Directory :=
  { dir with segments := dir.segments ++ [segment] }

/-- Cuts a segment at `length` bytes. -/
def Segment.cut (length : ℕ) (segment : Segment) : Segment :=
  { segment with bytes := segment.bytes.take length }

variable {S}

/-- The handle a reopen yields, with the state its view denotes. -/
def Opened.handle (o : Opened E) (state : S.State) : Handle S where
  root := o.root
  lsn := o.lsn
  active := o.active
  nextGeneration := o.nextGeneration
  walBytes := o.walBytes
  poisoned := false
  tail := false
  job := none
  cleanup := none
  replaced := none
  state := state

variable (S)

/-- The limits a run depends on. -/
structure WalLimits where
  maxUncheckpointedWalBytes : ℕ

/-- What a step does. -/
inductive Action
  | commit (payloads : List Bytes) (o : WriteOutcome)
  | capture (o : WriteOutcome)
  | captureFailed (left : Bool)
  | writeTable (file : FileInfo)
  | build (root : Root)
  | install (o : WriteOutcome)
  | abandon
  | removeSegment (n : ℕ)
  | removeCatalog (n : ℕ)
  | removeTable (id : FileId)
  | cleanupDone
  | crash (length : ℕ)
  | reopen

/-- **One step of a database over its directory.** -/
inductive Step (limits : WalLimits) : System S → Action → System S → Prop
  /-- A group of transactions is appended to the log and synced, and acknowledged
  when that succeeds. Each of them executes on the published state. -/
  | commit (s : System S) (h : Handle S) (payloads : List Bytes) (state : S.State)
      (o : WriteOutcome)
      (hh : s.handle = some h) (ready : h.poisoned = false)
      (hstate : S.run h.state h.lsn payloads = some state)
      (hsize : ∀ p ∈ payloads, p.length ≤ maxFrame)
      (hlsn : h.lsn + payloads.length ≤ maxU64)
      (hlimit : saturatingAdd h.walBytes (frameBytes (txFrames h.lsn payloads)).length ≤
        limits.maxUncheckpointedWalBytes) :
      Step limits s (.commit payloads o)
        { s with
          dir := s.dir.modify h.active (Segment.append o (frameBytes (txFrames h.lsn payloads)))
          writing := h.active
          handle := some (if o.failed then { h with poisoned := true } else
            { h with
              lsn := h.lsn + payloads.length
              walBytes := wrappingAdd h.walBytes (frameBytes (txFrames h.lsn payloads)).length
              state })
          acked := if o.failed then s.acked else s.acked ++ numbered h.lsn payloads
          submitted := s.submitted ++ numbered h.lsn payloads }
  /-- A checkpoint is captured: the log rotates to a new segment whose header
  repeats the current root. -/
  | capture (s : System S) (h : Handle S) (o : WriteOutcome)
      (hh : s.handle = some h) (ready : h.poisoned = false) (htail : h.tail = false)
      (hcleanup : h.cleanup = none) (hgeneration : h.nextGeneration + 1 ≤ maxU64) :
      Step limits s (.capture o)
        { s with
          dir := { s.dir with catalogs := s.dir.catalogs ++ [h.nextGeneration] }.addSegment
            (Segment.append o (rootFrame h.root).bytes ⟨h.nextGeneration, [], 0⟩)
          writing := h.nextGeneration
          handle := some (if o.failed then
              { h with poisoned := true, nextGeneration := h.nextGeneration + 1 }
            else
              { h with
                active := h.nextGeneration
                nextGeneration := h.nextGeneration + 1
                tail := true
                job := some { generation := h.nextGeneration, lsn := h.lsn, state := h.state,
                              walFrontierBytes := h.walBytes, built := none } }) }
  /-- A capture fails before there is a new segment; its catalog file may be left. -/
  | captureFailed (s : System S) (h : Handle S) (left : Bool)
      (hh : s.handle = some h) (ready : h.poisoned = false) (htail : h.tail = false)
      (hcleanup : h.cleanup = none) (hgeneration : h.nextGeneration + 1 ≤ maxU64) :
      Step limits s (.captureFailed left)
        { s with
          dir := { s.dir with catalogs :=
            if left then s.dir.catalogs ++ [h.nextGeneration] else s.dir.catalogs }
          handle := some { h with nextGeneration := h.nextGeneration + 1 } }
  /-- The build writes a file of the new generation. -/
  | writeTable (s : System S) (h : Handle S) (job : CheckpointJob S) (file : FileInfo)
      (hh : s.handle = some h) (hjob : h.job = some job) (hbuilt : job.built = none)
      (hgeneration : file.generation = job.generation)
      (hfresh : ∀ f ∈ s.dir.tables, f.id ≠ file.id) :
      Step limits s (.writeTable file)
        { s with dir := { s.dir with tables := s.dir.tables ++ [file] } }
  /-- The build returns a root of the captured state. It names files of the current root, files of
  its own generation, and the history files of the replaced root that entities in memory are bound
  to (`TableWriter::copy_history`). -/
  | build (s : System S) (h : Handle S) (job : CheckpointJob S) (root : Root)
      (hh : s.handle = some h) (hjob : h.job = some job) (hbuilt : job.built = none)
      (hgeneration : root.generation = job.generation) (hlsn : root.lsn = job.lsn)
      (hdecode : Root.decode root.encode = .ok root) (hsize : root.encode.length ≤ maxFrame)
      (hfiles : ∀ f ∈ root.files, f ∈ h.root.files ∨
        (∃ previous, h.replaced = some previous ∧ f ∈ previous.files) ∨
        f ∈ s.dir.tables ∧ f.generation = job.generation)
      (hdenotes : S.Denotes (E.load root) job.state) :
      Step limits s (.build root)
        { s with handle := some { h with job := some { job with built := some root } } }
  /-- The built root is appended to the active segment and synced. -/
  | install (s : System S) (h : Handle S) (job : CheckpointJob S) (root : Root)
      (o : WriteOutcome)
      (hh : s.handle = some h) (ready : h.poisoned = false) (hjob : h.job = some job)
      (hbuilt : job.built = some root) :
      Step limits s (.install o)
        { s with
          dir := s.dir.modify h.active (Segment.append o (rootFrame root).bytes)
          writing := h.active
          handle := some (if o.failed then { h with poisoned := true, job := none } else
            { h with
              root
              tail := false
              walBytes := h.walBytes - job.walFrontierBytes
              job := none
              cleanup := some h.root
              replaced := some h.root }) }
  /-- A checkpoint is given up, because its build failed. -/
  | abandon (s : System S) (h : Handle S) (job : CheckpointJob S)
      (hh : s.handle = some h) (hjob : h.job = some job) :
      Step limits s .abandon { s with handle := some { h with tail := false, job := none } }
  /-- The cleanup removes a log segment older than the replaced root. -/
  | removeSegment (s : System S) (h : Handle S) (previous : Root) (n : ℕ)
      (hh : s.handle = some h) (hcleanup : h.cleanup = some previous)
      (hn : n < previous.generation) :
      Step limits s (.removeSegment n)
        { s with dir :=
          { s.dir with segments := s.dir.segments.filter fun segment => segment.number ≠ n } }
  /-- The cleanup removes a catalog file of neither root. -/
  | removeCatalog (s : System S) (h : Handle S) (previous : Root) (n : ℕ)
      (hh : s.handle = some h) (hcleanup : h.cleanup = some previous)
      (hn : n ≠ previous.generation ∧ n ≠ h.root.generation) :
      Step limits s (.removeCatalog n)
        { s with dir := { s.dir with catalogs := s.dir.catalogs.filter (· ≠ n) } }
  /-- The cleanup removes a table file that neither root names. -/
  | removeTable (s : System S) (h : Handle S) (previous : Root) (id : FileId)
      (hh : s.handle = some h) (hcleanup : h.cleanup = some previous)
      (hid : id ∉ previous.fileIds ∧ id ∉ h.root.fileIds) :
      Step limits s (.removeTable id)
        { s with dir :=
          { s.dir with tables := s.dir.tables.filter fun file => file.id ≠ id } }
  /-- The cleanup ends, done or not. -/
  | cleanupDone (s : System S) (h : Handle S)
      (hh : s.handle = some h) :
      Step limits s .cleanupDone { s with handle := some { h with cleanup := none } }
  /-- The owner dies, and the segment written last is cut behind its synced bytes. -/
  | crash (s : System S) (length : ℕ)
      (hlength : ∀ segment ∈ s.dir.segments, segment.number = s.writing →
        segment.durable ≤ length) :
      Step limits s (.crash length)
        { s with
          dir := s.dir.modify s.writing (Segment.cut length)
          handle := none }
  /-- The directory is opened again. -/
  | reopen (s : System S) (o : Opened E) (state : S.State)
      (hh : s.handle = none) (hopen : openWithOptions E s.dir = .ok o)
      (hstate : S.Denotes o.view state) :
      Step limits s .reopen
        { s with dir := o.dir, writing := o.active, handle := some (o.handle state) }

/-- The directory `initialize` makes. -/
def initializeDirectory : Directory where
  control := controlFormat
  segments := [⟨0, (rootFrame Root.empty).bytes, (rootFrame Root.empty).bytes.length⟩]
  catalogs := [0]
  tables := []

/-- A directory that has been initialized and not opened yet. -/
def System.initial : System S where
  dir := initializeDirectory
  writing := 0
  handle := none
  acked := []
  submitted := []

/-- **The states a run can reach**, when every step it takes meets `condition`. -/
inductive Reachable (limits : WalLimits) (condition : System S → Action → Prop) :
    System S → Prop
  | initial : Reachable limits condition (System.initial S)
  | step {s s' : System S} {a : Action} : Reachable limits condition s → condition s a →
      Step S limits s a s' → Reachable limits condition s'

/-- The bytes of the segment written last that a sync has covered. -/
def System.syncedBytes {S : Semantics E} (s : System S) : ℕ :=
  ((s.dir.segments.filter (·.number = s.writing)).map Segment.durable).sum

/-- A power failure may leave nothing but what was synced. -/
theorem Step.crash_syncedBytes {S : Semantics E} (limits : WalLimits) (s : System S) :
    Step S limits s (.crash s.syncedBytes)
      { s with dir := s.dir.modify s.writing (Segment.cut s.syncedBytes), handle := none } := by
  refine Step.crash s _ fun segment hsegment hnumber => ?_
  have hmem : segment ∈ s.dir.segments.filter (·.number = s.writing) :=
    List.mem_filter.mpr ⟨hsegment, decide_eq_true hnumber⟩
  exact List.le_sum_of_mem (List.mem_map_of_mem hmem)

end EveDB
