import EveDB.Builder.Plan
import EveDB.Store.Life

/-!
# Maintenance of a shared database

How the connections of a shared database take their checkpoints (`shared.rs`, `maintain`,
`checkpoint_background` and `perform_maintenance`, over `capture_checkpoint`,
`abandon_checkpoint` and `install_checkpoint` of `database.rs`). One mutex guards the database,
and another one the flag that says whether a job is running.

A job is taken through its phases by the thread that runs it: the capture, which rotates the log
and starts a tail, the build, which no mutex is held for, the installation, or the abandonment of
a build that failed, and the cleanup. An explicit checkpoint waits until the flag is down and runs
its job itself; one in the background leaves it to a thread of its own, which goes on with
further jobs as long as they are due. Whoever has raised the flag takes it down when the guard is
dropped.

A thread stands at a `Activity` between any two sections that a mutex keeps together. What the file
system says, what a build returns and whether a thread can be spawned is given.
-/

namespace EveDB.Store

open Std

/-! ### What a job does to the database -/

/-- What goes wrong with the files of a capture. -/
structure CaptureFiles where
  catalog : Option String
  segment : Option String
  rotation : Option String

/-- A captured checkpoint. -/
structure CheckpointJob where
  options : Options
  state : ReadState
  generation : ℕ
  plan : BTreeMap ℕ
  rewriteHistory : Bool
  walFrontierBytes : ℕ

namespace Database

variable (db : Database)

/-- The log has grown enough for a checkpoint. -/
def maintenanceDue : Bool :=
  db.options.checkpointBytes ≤ db.walBytes ∧ db.state.root.manifest.lsn < db.state.lsn

/-- **Captures a checkpoint** under the next generation, and rotates the log. -/
def prepareCheckpoint (files : CaptureFiles) (plan : BTreeMap ℕ) (rewriteHistory : Bool)
    (nextGeneration : ℕ) : Result CheckpointJob × ℕ × Database :=
  if db.poisoned then (.error .needsRecovery, nextGeneration, db)
  else if db.checkpointTail.isSome then
    (.error (.invalid "maintenance already running"), nextGeneration, db)
  else
    match checkedAdd nextGeneration 1 with
    | none => (.error (.invalid "generation exhausted"), nextGeneration, db)
    | some after =>
      match files.catalog, files.segment with
      | some message, _ => (.error (.io message), after, db)
      | none, some message => (.error (.io message), after, db)
      | none, none =>
        match Frame.encode 1 db.state.root.manifest.lsn db.state.root.manifest.encode,
            files.rotation with
        | .error e, _ => (.error e, after, { db with poisoned := true })
        | .ok _, some message => (.error (.io message), after, { db with poisoned := true })
        | .ok header, none =>
          (.ok { options := db.options, state := db.state, generation := nextGeneration, plan
                 rewriteHistory, walFrontierBytes := db.walBytes },
           after, db.captured header)

/-- Captures a checkpoint or a compaction. -/
def captureCheckpoint (sparse : Occupancy → Bool) (files : CaptureFiles) (compact : Bool)
    (nextGeneration : ℕ) : Result CheckpointJob × ℕ × Database :=
  let root := db.state.root.manifest
  let plan :=
    if compact then root.generations.foldl (fun plan g => plan.insert g.generation maxU64) ∅
    else root.collectionPlan sparse db.options
  let rewrite := compact && (! root.historyCompacted || ! db.state.overlay.isEmpty)
  db.prepareCheckpoint files plan rewrite nextGeneration

/-- Gives a captured checkpoint up. -/
def abandonCheckpoint : Database := { db with checkpointTail := none }

/-- **Publishes a checkpoint** that was built. There has to be a tail. -/
def installCheckpoint (failure : Option (ℕ × String)) (root : Checkpoint) (walFrontierBytes : ℕ) :
    Option (Result Unit × Database) :=
  if db.poisoned then some (.error .needsRecovery, db)
  else
    match Frame.encode 1 root.manifest.lsn root.manifest.encode, failure with
    | .error e, _ => some (.error e, db)
    | .ok record, some (written, message) =>
      some (.error (.io message),
        { db with wal := db.wal ++ record.take written, poisoned := true })
    | .ok record, none =>
      db.checkpointTail.map fun tail => (.ok (), db.installed root tail record walFrontierBytes)

end Database

/-- **How a build ends**, when the pass over the tables has come to a root: its files and
partitions are counted, and it is written to the catalog. -/
def CheckpointJob.finish (failure : Option String) (root : Checkpoint) (job : CheckpointJob) :
    Result Checkpoint := do
  let historyFiles := root.manifest.fileIds.filter fun file => file.kind = 2 ∨ file.kind = 6
  check "history files" 0 historyFiles.length job.options.limits.maxHistoryFiles
  check "index partitions" 0 root.manifest.partitions.size job.options.limits.maxIndexPartitions
  let _ ← Frame.encode 4 job.state.lsn root.manifest.encode
  match failure with
  | some message => .error (.io message)
  | none => return root

/-- A group commit: its surroundings, how its write ends, and its members. -/
structure CommitCall where
  env : Env
  write : WalWrite
  tick : ℕ
  batches : List Prepared

/-- Commits the group. A shared database takes no checkpoint on the way. -/
def CommitCall.run (call : CommitCall) (db : Database) : List (Option (Result ℕ)) × Database :=
  commitGroup call.env (fun db => (.ok (), db)) call.write call.tick call.batches db

/-! ### Threads -/

/-- Who runs a job: the caller, or a thread in the background. -/
inductive Runner
  | explicit
  | background
  deriving DecidableEq

/-- Where a job stands. -/
inductive Phase
  | capturing (compact : Bool)
  | building (job : CheckpointJob)
  | abandoning (generation : ℕ) (e : Error)
  | installing (job : CheckpointJob) (root : Checkpoint)
  | cleaning
  /-- Behind a job in the background: is another one due? -/
  | checking
  /-- Before the result is left for whoever waits. -/
  | reporting (r : Result Unit)
  /-- Before the guard is dropped. -/
  | leaving

/-- Where a thread stands. -/
inductive Activity
  | idle
  /-- Wants to run a job, and waits until none is running. -/
  | queued (compact : Bool)
  /-- Waits until no job is running. -/
  | awaiting
  /-- Wants a job in the background, on behalf of a caller or behind a group commit. -/
  | starting (compact leader : Bool)
  /-- Has raised the flag, and spawns a thread. -/
  | spawning (compact leader : Bool)
  /-- A commit could not start the job that was due. -/
  | recording (e : Error)
  /-- Has committed a group. -/
  | leading (due : Bool)
  | working (runner : Runner) (phase : Phase)

/-- **A shared database and its threads.** -/
structure SharedDatabase where
  database : Database
  nextGeneration : ℕ
  /-- A job is running. -/
  running : Bool
  /-- The mutex of the flag is held while a thread is spawned. -/
  locked : Bool
  /-- What the last job has left for whoever waits. -/
  error : Option Error
  activity : ℕ → Activity

/-- What is noted of a run. -/
inductive Milestone
  | captured (generation : ℕ)
  | installed (generation : ℕ)
  | abandoned (generation : ℕ)
  | committed (call : CommitCall)

namespace SharedDatabase

/-- Takes a thread to another activity. -/
def enter (t : ℕ) (activity : Activity) (s : SharedDatabase) : SharedDatabase :=
  { s with activity := Function.update s.activity t activity }

/-- A database that has just been shared. -/
def fromDatabase (db : Database) (nextGeneration : ℕ) : SharedDatabase where
  database := { db with sharedMode := true }
  nextGeneration
  running := false
  locked := false
  error := none
  activity := fun _ => .idle

/-- What comes behind a cleanup. -/
def behindCleanup (runner : Runner) (r : Result Unit) : Activity :=
  match runner, r with
  | .background, .ok () => .working .background .checking
  | _, _ => .working runner (.reporting r)

/-! ### Steps -/

/-- **A step of a thread**, and what is noted of it. -/
inductive Step : SharedDatabase → List Milestone → SharedDatabase → Prop
  /-- `checkpoint` or `compact` is called. -/
  | maintain {s : SharedDatabase} (t : ℕ) (compact : Bool) (ht : s.activity t = .idle) :
      Step s [] (s.enter t (.queued compact))
  /-- No job is running, and the flag is raised. -/
  | claim {s : SharedDatabase} (t : ℕ) {compact : Bool} (ht : s.activity t = .queued compact)
      (hlock : s.locked = false) (hrunning : s.running = false) :
      Step s [] { s.enter t (.working .explicit (.capturing compact)) with running := true }
  /-- `wait_for_maintenance` is called. -/
  | wait {s : SharedDatabase} (t : ℕ) (ht : s.activity t = .idle) : Step s [] (s.enter t .awaiting)
  /-- No job is running, and what the last one has left is returned. -/
  | waited {s : SharedDatabase} (t : ℕ) (ht : s.activity t = .awaiting) (hlock : s.locked = false)
      (hrunning : s.running = false) : Step s [] (s.enter t .idle)
  /-- `checkpoint_background` is called. -/
  | background {s : SharedDatabase} (t : ℕ) (compact : Bool) (ht : s.activity t = .idle) :
      Step s [] (s.enter t (.starting compact false))
  /-- A job is running, and no other one is started. -/
  | coalesce {s : SharedDatabase} (t : ℕ) {compact leader : Bool}
      (ht : s.activity t = .starting compact leader) (hlock : s.locked = false)
      (hrunning : s.running = true) : Step s [] (s.enter t .idle)
  /-- The flag is raised for a thread that is about to be spawned. -/
  | start {s : SharedDatabase} (t : ℕ) {compact leader : Bool}
      (ht : s.activity t = .starting compact leader) (hlock : s.locked = false)
      (hrunning : s.running = false) :
      Step s [] { s.enter t (.spawning compact leader) with running := true, locked := true }
  /-- A thread is spawned, which begins with the capture. -/
  | spawned {s : SharedDatabase} (t thread : ℕ) {compact leader : Bool}
      (ht : s.activity t = .spawning compact leader) (hthread : s.activity thread = .idle) :
      Step s []
        { (s.enter t .idle).enter thread (.working .background (.capturing compact)) with
          locked := false }
  /-- The thread cannot be spawned, and the flag is taken down. -/
  | spawnFailed {s : SharedDatabase} (t : ℕ) {compact leader : Bool} (e : Error)
      (ht : s.activity t = .spawning compact leader) :
      Step s []
        { s.enter t (if leader then .recording e else .idle) with
          running := false, locked := false }
  /-- The leader of a group leaves that error for whoever waits. -/
  | record {s : SharedDatabase} (t : ℕ) {e : Error} (ht : s.activity t = .recording e) :
      Step s [] { s.enter t .idle with error := some e }
  /-- A group is committed, and a job may be due. -/
  | commit {s : SharedDatabase} (t : ℕ) (call : CommitCall) (ht : s.activity t = .idle) :
      Step s [.committed call]
        { s.enter t (.leading (call.run s.database).2.maintenanceDue) with
          database := (call.run s.database).2 }
  /-- A job that is due is started, unless the last one has failed. -/
  | follow {s : SharedDatabase} (t : ℕ) {due : Bool} (ht : s.activity t = .leading due) :
      Step s [] (s.enter t (if due && s.error.isNone then .starting false true else .idle))
  | capture {s : SharedDatabase} (t : ℕ) {runner : Runner} {compact : Bool}
      (sparse : Occupancy → Bool) (files : CaptureFiles) {job : CheckpointJob} {next : ℕ}
      {db : Database} (ht : s.activity t = .working runner (.capturing compact))
      (hcapture : s.database.captureCheckpoint sparse files compact s.nextGeneration =
        (.ok job, next, db)) :
      Step s [.captured job.generation]
        { s.enter t (.working runner (.building job)) with database := db, nextGeneration := next }
  | captureFailed {s : SharedDatabase} (t : ℕ) {runner : Runner} {compact : Bool}
      (sparse : Occupancy → Bool) (files : CaptureFiles) {e : Error} {next : ℕ} {db : Database}
      (ht : s.activity t = .working runner (.capturing compact))
      (hcapture : s.database.captureCheckpoint sparse files compact s.nextGeneration =
        (.error e, next, db)) :
      Step s []
        { s.enter t (.working runner (.reporting (.error e))) with
          database := db, nextGeneration := next }
  /-- The build comes to its end with a root of the captured view. -/
  | built {s : SharedDatabase} (t : ℕ) {runner : Runner} {job : CheckpointJob}
      {root root' : Checkpoint} (failure : Option String)
      (ht : s.activity t = .working runner (.building job))
      (hgeneration : root.manifest.generation = job.generation)
      (hlsn : root.manifest.lsn = job.state.lsn) (hfinish : job.finish failure root = .ok root') :
      Step s [] (s.enter t (.working runner (.installing job root')))
  /-- The build fails, at its end or before. -/
  | buildFailed {s : SharedDatabase} (t : ℕ) {runner : Runner} {job : CheckpointJob} (e : Error)
      (ht : s.activity t = .working runner (.building job)) :
      Step s [] (s.enter t (.working runner (.abandoning job.generation e)))
  | abandon {s : SharedDatabase} (t : ℕ) {runner : Runner} {generation : ℕ} {e : Error}
      (ht : s.activity t = .working runner (.abandoning generation e)) :
      Step s [.abandoned generation]
        { s.enter t (.working runner (.reporting (.error e))) with
          database := s.database.abandonCheckpoint }
  | install {s : SharedDatabase} (t : ℕ) {runner : Runner} {job : CheckpointJob}
      {root : Checkpoint} (failure : Option (ℕ × String)) {db : Database}
      (ht : s.activity t = .working runner (.installing job root))
      (hinstall : s.database.installCheckpoint failure root job.walFrontierBytes =
        some (.ok (), db)) :
      Step s [.installed job.generation]
        { s.enter t (.working runner .cleaning) with database := db }
  | installFailed {s : SharedDatabase} (t : ℕ) {runner : Runner} {job : CheckpointJob}
      {root : Checkpoint} (failure : Option (ℕ × String)) {e : Error} {db : Database}
      (ht : s.activity t = .working runner (.installing job root))
      (hinstall : s.database.installCheckpoint failure root job.walFrontierBytes =
        some (.error e, db)) :
      Step s [] { s.enter t (.working runner (.reporting (.error e))) with database := db }
  | clean {s : SharedDatabase} (t : ℕ) {runner : Runner} (r : Result Unit)
      (ht : s.activity t = .working runner .cleaning) :
      Step s [] (s.enter t (behindCleanup runner r))
  /-- The thread in the background goes on if another job is due. -/
  | checkDue {s : SharedDatabase} (t : ℕ) {runner : Runner}
      (ht : s.activity t = .working runner .checking) :
      Step s [] (s.enter t (.working runner
        (if s.database.maintenanceDue then .capturing false else .reporting (.ok ()))))
  | report {s : SharedDatabase} (t : ℕ) {runner : Runner} {r : Result Unit}
      (ht : s.activity t = .working runner (.reporting r)) :
      Step s []
        { s.enter t (.working runner .leaving) with
          error := match r with
            | .ok () => none
            | .error e => some e }
  /-- The guard is dropped. -/
  | leave {s : SharedDatabase} (t : ℕ) {runner : Runner}
      (ht : s.activity t = .working runner .leaving) (hlock : s.locked = false) :
      Step s [] { s.enter t .idle with running := false }

/-- **A run**, and what is noted of it, in order. -/
inductive Run (s : SharedDatabase) : List Milestone → SharedDatabase → Prop
  | refl : Run s [] s
  | step {ms new : List Milestone} {s' s'' : SharedDatabase} (h : Run s ms s')
      (hstep : Step s' new s'') : Run s (ms ++ new) s''

end SharedDatabase

end EveDB.Store
