import EveDB.Builder.Exact
import EveDB.Store.Catalogs

/-!
# A shared database and its files

A shared database (`shared.rs`) with the files of its checkpoints: connections pin the view that is
published and stage transactions on it, groups of batches are validated and committed, and in
between checkpoints are captured, built, installed or given up, and what no manifest in use names is
swept away. When the process ends, the directory is opened again.

One job at a time works on a checkpoint (`Work`), since whoever does holds the flag of the
maintenance. It holds the coordinator while it captures and installs, but neither while it builds
nor while it sweeps, so that commits, pins and releases come in between.
-/

namespace EveDB

open Std Store

/-! ### The parts -/

/-- The files a view needs: those of its manifest, and those of the manifests its entities in memory
are bound to. -/
def Store.ReadState.fileIds (view : ReadState) : List FileId :=
  view.root.manifest.fileIds ++ view.overlay.toList.flatMap fun (_, data) =>
    data.disk.elim [] fun disk => disk.root.manifest.fileIds

/-- **Where the maintenance stands.** -/
inductive Work
  | idle
  | building (job : Store.CheckpointJob)
  | installing (job : Store.CheckpointJob) (root : Checkpoint)
  /-- A checkpoint has been installed in the place of another one, and `state` is behind it. -/
  | installed (previous : Root) (state : ReadState)
  /-- All files are swept away but these. -/
  | sweeping (keep : List FileId)

/-- **A shared database with its files.** -/
structure Running where
  disk : Disk
  database : Database
  nextGeneration : ℕ
  coordinator : Coordinator
  work : Work
  /-- The views of snapshots and of transactions. -/
  views : List ReadState
  /-- The manifests that have been installed since the directory was made, with the files there
  were. -/
  roots : List (Root × Disk)
  /-- The manifest whose place the current one has taken, since the directory was opened. -/
  replaced : Option Root
  /-- The view the directory was opened with. -/
  opened : ReadState
  /-- The batches that have been committed since, in their order. -/
  written : List Store.Prepared

namespace Running

/-- The members of a group with their answers. -/
def answered {E : Engine} {S : Semantics E} (accepted : List (EveDB.Prepared S))
    (answers : List (Option (Result ℕ))) : List (EveDB.Prepared S × Result ℕ) :=
  (accepted.zip answers).filterMap fun (p, answer) => answer.map fun answer => (p, answer)

variable (s : Running)

/-- The sequence of the oldest view, or the last one (`SharedDatabase::prune_revisions`). -/
def oldest : ℕ := ((s.views.map ReadState.lsn).min?).getD s.database.state.lsn

/-- What a cleanup keeps (`Cleanup::run`): the files of the manifest that was replaced, of the view
behind the installation, and of all views in use. -/
def kept (previous : Root) (state : ReadState) : List FileId :=
  previous.fileIds ++ state.fileIds ++ s.views.flatMap ReadState.fileIds

/-! ### Steps -/

/-- **A step of a shared database.** -/
inductive Step (storage : Storage) : Running → Running → Prop
  /-- The published view is pinned. -/
  | pin (s : Running) (hopen : s.database.poisoned = false) :
      Step storage s { s with views := s.database.published :: s.views }
  /-- A view is not needed any more. -/
  | release (s : Running) {l₁ l₂ : List ReadState} {view : ReadState}
      (hviews : s.views = l₁ ++ view :: l₂) :
      Step storage s { s with views := l₁ ++ l₂ }
  /-- A group is validated and committed, and the revisions are recorded. -/
  | commit (s : Running) {E : Engine} {S : Semantics E} {late : ℕ → Bool}
      {claimed accepted : List (EveDB.Prepared S)}
      {completed : List (EveDB.Prepared S × Result ℕ)} {call : CommitCall}
      {answers : List (Option (Result ℕ))} {db : Database}
      (hvalid : s.coordinator.validateGroup s.database.poisoned late ∅
        s.coordinator.catalogRevision claimed = (accepted, completed))
      (haccepted : List.Forall₂ Prepared.Represents call.batches accepted)
      (hbatches : ∀ batch ∈ call.batches, ∃ view ∈ s.views, batch.HandedOver view)
      (htyped : ∀ batch ∈ call.batches, ∀ operation ∈ batch.operations, operation.Typed)
      (hcommit : call.run s.database = (answers, db)) :
      Step storage s
        { s with
          database := db
          coordinator := s.coordinator.record (answered accepted answers)
          written := s.written ++ (committed call.batches answers).map Prod.fst }
  /-- A checkpoint is captured. -/
  | capture (s : Running) {sparse : Occupancy → Bool} {files : CaptureFiles} {compact : Bool}
      {job : Store.CheckpointJob} {next : ℕ} {db : Database} (hidle : s.work = .idle)
      (hcapture : s.database.captureCheckpoint sparse files compact s.nextGeneration =
        (.ok job, next, db)) :
      Step storage s { s with work := .building job, database := db, nextGeneration := next }
  /-- A capture fails. -/
  | captureFailed (s : Running) {sparse : Occupancy → Bool} {files : CaptureFiles} {compact : Bool}
      {e : Error} {next : ℕ} {db : Database} (hidle : s.work = .idle)
      (hcapture : s.database.captureCheckpoint sparse files compact s.nextGeneration =
        (.error e, next, db)) :
      Step storage s { s with database := db, nextGeneration := next }
  /-- A checkpoint is built. -/
  | build (s : Running) {job : Store.CheckpointJob} {failure : Option String} {root : Checkpoint}
      {disk : Disk} (hbuilding : s.work = .building job)
      (hbuild : (job.build storage s.disk failure).result = .ok (root, disk)) :
      Step storage s { s with work := .installing job root, disk }
  /-- A build fails and is given up, behind some files of its own. -/
  | abandon (s : Running) {job : Store.CheckpointJob} {disk : Disk}
      (hbuilding : s.work = .building job)
      (hleft : ∀ file, disk file = s.disk file ∨
        s.disk file = none ∧ file.generation = job.generation) :
      Step storage s
        { s with work := .idle, disk, database := s.database.abandonCheckpoint }
  /-- The checkpoint is installed, and the revisions are pruned. -/
  | install (s : Running) {job : Store.CheckpointJob} {root : Checkpoint}
      {failure : Option (ℕ × String)} {db : Database} (hinstalling : s.work = .installing job root)
      (hinstall : s.database.installCheckpoint failure root job.walFrontierBytes =
        some (.ok (), db)) :
      Step storage s
        { s with
          work := .installed s.database.state.root.manifest db.state
          database := db
          coordinator := s.coordinator.pruneRevisions (oldest { s with database := db })
          roots := (root.manifest, s.disk) :: s.roots
          replaced := some s.database.state.root.manifest }
  /-- The installation fails. -/
  | installFailed (s : Running) {job : Store.CheckpointJob} {root : Checkpoint}
      {failure : Option (ℕ × String)} {e : Error} {db : Database}
      (hinstalling : s.work = .installing job root)
      (hinstall : s.database.installCheckpoint failure root job.walFrontierBytes =
        some (.error e, db)) :
      Step storage s { s with work := .idle, database := db }
  /-- The cleanup looks up what to keep. -/
  | sweep (s : Running) {previous : Root} {state : ReadState}
      (hinstalled : s.work = .installed previous state) :
      Step storage s { s with work := .sweeping (s.kept previous state) }
  /-- A file that is not kept is removed. -/
  | remove (s : Running) {keep : List FileId} (file : FileId) (hsweeping : s.work = .sweeping keep)
      (hfile : file ∉ keep) :
      Step storage s { s with disk := Function.update s.disk file none }
  /-- The cleanup comes to its end, or fails. -/
  | swept (s : Running) {keep : List FileId} (hsweeping : s.work = .sweeping keep) :
      Step storage s { s with work := .idle }

/-- **The process ends**, which loses some files, and the directory is opened again with a manifest
whose files are all there. -/
inductive Reopens : Running → Running → Prop
  | mk (s : Running) {disk : Disk} {env : Env} {options : Options} {dir dir' : Directory}
      {db : Database} {next : ℕ} {held : Disk}
      (hleft : ∀ file, disk file = s.disk file ∨ disk file = none)
      (hopen : openDatabase env (fun root => (Checkpoint.ofDisk disk root).files) options dir =
        .ok (db, dir'))
      (hroot : (db.state.root.manifest, held) ∈ s.roots)
      (hverified : ∀ info ∈ db.state.root.manifest.files, disk info.id = held info.id)
      (hnext : db.state.root.manifest.generation < next) :
      Reopens s
        { s with
          disk, database := { db with sharedMode := true }, nextGeneration := next
          coordinator := .new, work := .idle, views := [], replaced := none, opened := db.state
          written := [] }

/-- **The states a shared database can reach** from a new directory. -/
inductive Reachable (storage : Storage) : Running → Prop
  | opened {env : Env} {options : Options} {dir' : Directory} {db : Database}
      (hopen : openDatabase env (fun root => (Checkpoint.ofDisk (fun _ => none) root).files) options
        initializeDirectory = .ok (db, dir')) :
      Reachable storage
        { disk := fun _ => none
          database := { db with sharedMode := true }
          nextGeneration := 1
          coordinator := .new
          work := .idle
          views := []
          roots := [(Root.empty, fun _ => none)]
          replaced := none
          opened := db.state
          written := [] }
  | step {s s' : Running} (h : Reachable storage s) (hstep : Step storage s s') :
      Reachable storage s'
  | reopened {s s' : Running} (h : Reachable storage s) (hreopens : Reopens s s') :
      Reachable storage s'

end Running

end EveDB
