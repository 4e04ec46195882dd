import EveDB.Shared.Coordinator

/-!
# Runs of a database with concurrent connections

The steps of an open database and everyone connected to it: readers that pin the
published view, transactions that are staged, queued, withdrawn or committed in groups,
checkpoints, and underneath the directory with its writes, crashes and reopenings
(`EveDB.Recovery.System`). A local database is one whose transactions commit one at a
time and directly; a shared one queues them.

Two locks order these steps. The commit coordinator is a mutex; `Lock` says who holds it
and how far they are. The published view is behind a reader-writer lock: a pin holds it
for reading from the moment it copies the view (`Step.pin`) until it has registered
itself (`Step.register`), and a new view is published only when no pin is in between.
-/

namespace EveDB

variable {E : Engine} (S : Semantics E)

/-- Who holds the commit coordinator. -/
inductive Lock
  | free
  /-- A group has been claimed and validated. `completed` are the members that did not
  pass, and `before` is the generation of the root. -/
  | validated (accepted : List (Prepared S)) (completed : List (Prepared S × Result ℕ))
      (before : ℕ)
  /-- The group is in the log and in the state of the database, but not published. -/
  | written (answers completed : List (Prepared S × Result ℕ)) (before : ℕ)
  /-- The accepted members have their answers, which the callers do not have yet. -/
  | answered (answers completed : List (Prepared S × Result ℕ)) (before : ℕ)
  /-- A checkpoint has been installed and published. -/
  | installed
  /-- The oldest live view has been looked up. -/
  | pruning (oldest : ℕ)

/-- A database, the connections to it, and what it has answered. -/
structure Shared where
  /-- The directory, its owner, and what is on disk. -/
  system : System S
  /-- Transactions commit through the queue. -/
  sharedMode : Bool
  /-- The published view. -/
  current : View S
  /-- Copies of the published view that are being registered. -/
  pinning : List (View S)
  /-- The registered views that readers hold. -/
  pins : List (View S)
  /-- The transactions that are being staged; a transaction holds its view. -/
  staging : List (Prepared S)
  queue : Queue S
  coordinator : Coordinator
  lock : Lock S
  /-- The identity of the next transaction. -/
  next : ℕ
  /-- The identity of the first transaction of the shared database. -/
  firstShared : ℕ
  /-- The transactions committed since the database was opened or became a shared one, with
  their sequences. -/
  committed : List (Prepared S × ℕ)
  /-- The answers to the transactions that have finished since then, and before. -/
  results : List (Prepared S × Result ℕ)
  past : List (Prepared S × Result ℕ)
  /-- The groups ever handed to the log, with the sequence in front of each. -/
  groups : List (ℕ × List (Prepared S))

variable {S}

/-- The members of a group that are going to be written. -/
def Lock.accepted : Lock S → List (Prepared S)
  | .validated accepted _ _ => accepted
  | _ => []

/-- The members of a group that did not pass validation. -/
def Lock.completed : Lock S → List (Prepared S × Result ℕ)
  | .validated _ completed _ | .written _ completed _ | .answered _ completed _ => completed
  | _ => []

/-- The answers the other members have. -/
def Lock.answers : Lock S → List (Prepared S × Result ℕ)
  | .written answers _ _ | .answered answers _ _ => answers
  | _ => []

/-- The views that are registered: those of readers, and of transactions wherever they
are. A group lets go of its views as it gets its answers. -/
def Shared.registered (s : Shared S) : List (View S) :=
  s.pins ++ s.staging.map Prepared.base ++ s.queue.waiting.map Prepared.base ++
    s.lock.accepted.map Prepared.base

/-- The sequence of the oldest registered view. -/
def Shared.oldestSequence (s : Shared S) : Option ℕ := (s.registered.map View.lsn).min?

/-- What a caller learns when it asks for a commit, before the transaction is queued or
written. -/
structure Admission where
  /-- The transaction has expired. -/
  expired : Bool
  /-- One of its operations has failed. -/
  failed : Bool
  /-- The deadline cannot be represented. -/
  overflow : Bool
  /-- The deadline has passed. -/
  passed : Bool

/-- The checks of a commit up to the queue: an answer, or the queue with the transaction
in it. A local transaction is not queued. -/
def enqueue (limits : QueueLimits) (sharedMode poisoned : Bool) (reading : Admission)
    (batch : Prepared S) (queue : Queue S) : Result (ℕ ⊕ Queue S) :=
  if reading.expired then .error .transactionExpired
  else if poisoned then .error .needsRecovery
  else if reading.failed then .error (.invalid "cannot commit an aborted transaction")
  else if reading.overflow then .error (.invalid "timeout overflow")
  else if ¬ sharedMode then .ok (.inr queue)
  else if batch.isEmpty then .ok (.inl batch.base.lsn)
  else if reading.passed then .error .deadlineExceeded
  else do
    let queue ← queue.submit limits batch
    return .inr queue

/-- The limits of a database. -/
structure Limits where
  wal : WalLimits
  queue : QueueLimits
  group : GroupCommit

/-- The view of the state a database has, published or not. -/
def Handle.view (h : Handle S) : View S := ⟨h.lsn, h.state⟩

/-- The actions of a checkpoint and its cleanup, up to the installation. -/
def Action.IsMaintenance : Action → Prop
  | .capture _ | .captureFailed _ | .writeTable _ | .build _ | .abandon | .removeSegment _
  | .removeCatalog _ | .removeTable _ | .cleanupDone => True
  | .commit _ _ | .install _ | .crash _ | .reopen => False

/-- The coordinator behind a group: the revisions of the published members, pruned when
the root has changed meanwhile. -/
def Shared.recorded (s : Shared S) (h : Handle S) (answers : List (Prepared S × Result ℕ))
    (before : ℕ) : Coordinator :=
  let c := if s.sharedMode then s.coordinator.record answers else s.coordinator
  if h.root.generation ≠ before then c.pruneRevisions (s.oldestSequence.getD h.lsn) else c

/-- **One step of a database and the connections to it.** -/
inductive Shared.Step (limits : Limits) : Shared S → Shared S → Prop
  /-- The published view is copied, if the database is not poisoned. -/
  | pin (s : Shared S) (h : Handle S)
      (hh : s.system.handle = some h) (ready : h.poisoned = false) :
      Step limits s { s with pinning := s.current :: s.pinning }
  /-- The copy is registered; the view can be published again. -/
  | register (s : Shared S) (v : View S) (l₁ l₂ : List (View S))
      (hv : s.pinning = l₁ ++ v :: l₂) :
      Step limits s { s with pinning := l₁ ++ l₂, pins := v :: s.pins }
  /-- A reader drops its view, or the view expires. -/
  | unpin (s : Shared S) (v : View S) (l₁ l₂ : List (View S))
      (hv : s.pins = l₁ ++ v :: l₂) :
      Step limits s { s with pins := l₁ ++ l₂ }
  /-- A pinned view becomes the base of a transaction. -/
  | begin (s : Shared S) (v : View S) (l₁ l₂ : List (View S)) (batch : Prepared S)
      (hmode : s.sharedMode = true) (hv : s.pins = l₁ ++ v :: l₂)
      (hid : batch.id = s.next) (hbase : batch.base = v) :
      Step limits s
        { s with pins := l₁ ++ l₂, staging := batch :: s.staging, next := s.next + 1 }
  /-- A local transaction begins with the state of the database, which it borrows. -/
  | beginLocal (s : Shared S) (h : Handle S) (batch : Prepared S)
      (hh : s.system.handle = some h) (ready : h.poisoned = false)
      (hmode : s.sharedMode = false) (hlock : s.lock = .free) (hstaging : s.staging = [])
      (hid : batch.id = s.next) (hbase : batch.base = h.view) :
      Step limits s { s with staging := batch :: s.staging, next := s.next + 1 }
  /-- An operation is staged. -/
  | stage (s : Shared S) (batch batch' : Prepared S) (l₁ l₂ : List (Prepared S))
      (hb : s.staging = l₁ ++ batch :: l₂) (hid : batch'.id = batch.id)
      (hbase : batch'.base = batch.base) :
      Step limits s { s with staging := l₁ ++ batch' :: l₂ }
  /-- A transaction is dropped or expires. -/
  | abort (s : Shared S) (batch : Prepared S) (l₁ l₂ : List (Prepared S))
      (hb : s.staging = l₁ ++ batch :: l₂) :
      Step limits s { s with staging := l₁ ++ l₂ }
  /-- A commit is answered before it reaches the queue. -/
  | refuse (s : Shared S) (h : Handle S) (batch : Prepared S) (l₁ l₂ : List (Prepared S))
      (reading : Admission) (answer : Result ℕ)
      (hh : s.system.handle = some h) (hb : s.staging = l₁ ++ batch :: l₂)
      (henqueue :
      (∃ e, enqueue limits.queue s.sharedMode h.poisoned reading batch s.queue = .error e ∧
          answer = .error e) ∨
        ∃ n, enqueue limits.queue s.sharedMode h.poisoned reading batch s.queue = .ok (.inl n) ∧
          answer = .ok n) :
      Step limits s
        { s with staging := l₁ ++ l₂, results := s.results ++ [(batch, answer)] }
  /-- A commit is queued. -/
  | submit (s : Shared S) (h : Handle S) (batch : Prepared S) (l₁ l₂ : List (Prepared S))
      (reading : Admission) (queue : Queue S)
      (hh : s.system.handle = some h) (hmode : s.sharedMode = true)
      (hb : s.staging = l₁ ++ batch :: l₂)
      (henqueue : enqueue limits.queue s.sharedMode h.poisoned reading batch s.queue =
        .ok (.inr queue)) :
      Step limits s { s with staging := l₁ ++ l₂, queue }
  /-- A queued commit expires before it is claimed. -/
  | cancel (s : Shared S) (batch : Prepared S) (hb : batch ∈ s.queue.waiting) :
      Step limits s
        { s with queue := s.queue.cancel batch
                 results := s.results ++ [(batch, .error .deadlineExceeded)] }
  /-- A leader takes the coordinator, claims a group and validates it. -/
  | claim (s : Shared S) (h : Handle S) (expired : ℕ → Bool)
      (accepted : List (Prepared S)) (completed : List (Prepared S × Result ℕ))
      (hh : s.system.handle = some h) (hmode : s.sharedMode = true) (hlock : s.lock = .free)
      (hvalid : s.coordinator.validateGroup h.poisoned expired ∅ s.coordinator.catalogRevision
        (s.queue.claim limits.group) = (accepted, completed)) :
      Step limits s
        { s with queue := s.queue.rest limits.group
                 lock := .validated accepted completed h.root.generation }
  /-- A local transaction commits directly. -/
  | commitLocal (s : Shared S) (h : Handle S) (batch : Prepared S) (l₁ l₂ : List (Prepared S))
      (reading : Admission) (queue : Queue S)
      (hh : s.system.handle = some h) (hmode : s.sharedMode = false) (hlock : s.lock = .free)
      (hb : s.staging = l₁ ++ batch :: l₂)
      (henqueue : enqueue limits.queue s.sharedMode h.poisoned reading batch s.queue =
        .ok (.inr queue)) :
      Step limits s
        { s with staging := l₁ ++ l₂, lock := .validated [batch] [] h.root.generation }
  /-- The group commit ends before it writes anything. -/
  | reject (s : Shared S) (h : Handle S) (accepted : List (Prepared S))
      (completed answers : List (Prepared S × Result ℕ)) (before : ℕ) (readings : GroupReadings)
      (hh : s.system.handle = some h) (hlock : s.lock = .validated accepted completed before)
      (hfault : ∀ m, readings.fault ≠ some (.commitUnknown m))
      (hgroup : commitGroup h.poisoned h.lsn h.walBytes limits.wal readings accepted =
        some (answers, [])) :
      Step limits s { s with lock := .answered answers completed before }
  /-- The group is written and synced, and the state of the database moves on. -/
  | write (s : Shared S) (h : Handle S) (accepted active : List (Prepared S))
      (completed answers : List (Prepared S × Result ℕ)) (before : ℕ) (readings : GroupReadings)
      (system : System S)
      (hh : s.system.handle = some h) (hlock : s.lock = .validated accepted completed before)
      (hfault : ∀ m, readings.fault ≠ some (.commitUnknown m))
      (hgroup : commitGroup h.poisoned h.lsn h.walBytes limits.wal readings accepted =
        some (answers, active)) (hne : active ≠ [])
      (hsystem : EveDB.Step S limits.wal s.system (.commit (active.map Prepared.payload) .ok)
        system) :
      Step limits s
        { s with
          system
          committed := s.committed ++ active.zipIdx (h.lsn + 1)
          groups := s.groups ++ [(h.lsn, active)]
          lock := .written (answers ++ published h.lsn active) completed before }
  /-- The write or the sync of the group fails. -/
  | writeFailed (s : Shared S) (h : Handle S) (accepted active : List (Prepared S))
      (completed answers : List (Prepared S × Result ℕ)) (before : ℕ) (readings : GroupReadings)
      (system : System S) (bytes : ℕ) (synced : Bool) (message : String)
      (hh : s.system.handle = some h) (hlock : s.lock = .validated accepted completed before)
      (hfault : ∀ m, readings.fault ≠ some (.commitUnknown m))
      (hgroup : commitGroup h.poisoned h.lsn h.walBytes limits.wal readings accepted =
        some (answers, active)) (hne : active ≠ [])
      (hsystem : EveDB.Step S limits.wal s.system
        (.commit (active.map Prepared.payload) (.error bytes synced)) system) :
      Step limits s
        { s with
          system
          groups := s.groups ++ [(h.lsn, active)]
          lock := .answered (answers ++ answerAll (.commitUnknown message) active) completed
            before }
  /-- The new state is published. -/
  | publish (s : Shared S) (h : Handle S) (answers completed : List (Prepared S × Result ℕ))
      (before : ℕ)
      (hh : s.system.handle = some h) (hlock : s.lock = .written answers completed before)
      (hpinning : s.pinning = []) :
      Step limits s { s with current := h.view, lock := .answered answers completed before }
  /-- The revisions are recorded, and the callers get their answers. -/
  | finish (s : Shared S) (h : Handle S) (answers completed : List (Prepared S × Result ℕ))
      (before : ℕ)
      (hh : s.system.handle = some h) (hlock : s.lock = .answered answers completed before) :
      Step limits s
        { s with
          coordinator := s.recorded h answers before
          queue := if s.sharedMode then s.queue.finish ((completed ++ answers).map Prod.fst)
            else s.queue
          results := s.results ++ (completed ++ answers)
          lock := .free }
  /-- A step of a checkpoint or of its cleanup. -/
  | maintain (s : Shared S) (a : Action) (system : System S) (ha : a.IsMaintenance)
      (hsystem : EveDB.Step S limits.wal s.system a system) :
      Step limits s { s with system }
  /-- A checkpoint is installed and its view published, the coordinator being held. -/
  | install (s : Shared S) (h : Handle S) (system : System S)
      (hh : s.system.handle = some h) (hmode : s.sharedMode = true) (hlock : s.lock = .free)
      (hpinning : s.pinning = [])
      (hsystem : EveDB.Step S limits.wal s.system (.install .ok) system) :
      Step limits s { s with system, current := h.view, lock := .installed }
  /-- A local checkpoint, on its own or inside a commit. -/
  | installLocal (s : Shared S) (h : Handle S) (system : System S)
      (hh : s.system.handle = some h) (hmode : s.sharedMode = false)
      (hlock : s.lock = .free ∨ ∃ accepted completed before,
        s.lock = .validated accepted completed before)
      (hpinning : s.pinning = [])
      (hsystem : EveDB.Step S limits.wal s.system (.install .ok) system) :
      Step limits s { s with system, current := h.view }
  /-- The write of a checkpoint fails. -/
  | installFailed (s : Shared S) (bytes : ℕ) (synced : Bool) (system : System S)
      (hsystem : EveDB.Step S limits.wal s.system (.install (.error bytes synced)) system) :
      Step limits s { s with system }
  /-- The oldest live view is looked up. -/
  | lookup (s : Shared S) (h : Handle S)
      (hh : s.system.handle = some h) (hlock : s.lock = .installed) :
      Step limits s { s with lock := .pruning (s.oldestSequence.getD h.lsn) }
  /-- The revisions no live view needs are dropped. -/
  | prune (s : Shared S) (oldest : ℕ) (hlock : s.lock = .pruning oldest) :
      Step limits s
        { s with coordinator := s.coordinator.pruneRevisions oldest, lock := .free }
  /-- A local database becomes a shared one. -/
  | intoShared (s : Shared S) (hmode : s.sharedMode = false) (hstaging : s.staging = [])
      (hlock : s.lock = .free) :
      Step limits s
        { s with sharedMode := true, coordinator := .new, committed := []
                 queue := ⟨[], 0, 0⟩, firstShared := s.next }
  /-- The process dies, and everyone connected with it. -/
  | crash (s : Shared S) (length : ℕ) (system : System S)
      (hsystem : EveDB.Step S limits.wal s.system (.crash length) system) :
      Step limits s
        { s with
          system, pinning := [], pins := [], staging := [], queue := ⟨[], 0, 0⟩
          coordinator := .new, lock := .free, committed := []
          past := s.past ++ s.results, results := [] }
  /-- The directory is opened again, as a local database. -/
  | reopen (s : Shared S) (h : Handle S) (system : System S)
      (hsystem : EveDB.Step S limits.wal s.system .reopen system)
      (hh : system.handle = some h) :
      Step limits s { s with system, current := h.view, sharedMode := false }

variable (S) in
/-- A directory that has been initialized, and nobody connected to it. -/
def Shared.initial : Shared S where
  system := System.initial S
  sharedMode := false
  current := ⟨0, S.initial⟩
  pinning := []
  pins := []
  staging := []
  queue := ⟨[], 0, 0⟩
  coordinator := .new
  lock := .free
  next := 0
  firstShared := 0
  committed := []
  results := []
  past := []
  groups := []

variable (S) in
/-- **The states a run can reach.** -/
inductive Shared.Reachable (limits : Limits) : Shared S → Prop
  | initial : Reachable limits (Shared.initial S)
  | step {s s' : Shared S} : Reachable limits s → Step limits s s' → Reachable limits s'

end EveDB
