import EveDB.Shared.Steps

/-!
# Requests, callers and leaders

The commit queue as its callers see it. A caller submits a request and then loops, each
round under the mutex of the queue: it takes its result if there is one, withdraws the
request when its deadline has passed and nobody has claimed it, or becomes the leader if
there is none. A leader tries to get the coordinator, and claims a group or gives up; a
claimed group gets its results all at once, from a commit or, when the coordinator is
poisoned or the leader unwinds, from the guard that hands leadership back.

`cancels`, `groups` and `answers` record what has happened: the requests withdrawn, the
groups claimed and the results given, in order.
-/

namespace EveDB

variable {E : Engine} (S : Semantics E)

/-- A request in the queue, or on its way through it. -/
structure Request where
  /-- The transaction, as long as it is in the queue. -/
  batch : Option (Prepared S)
  result : Option (Result ℕ)
  bytes : ℕ

/-- What the caller that has submitted a request is doing. -/
inductive Caller
  /-- It has not submitted it yet. -/
  | absent
  /-- It goes through the loop of `commit`. -/
  | looping
  /-- It is the leader, and has claimed nothing yet. -/
  | leading
  /-- It is the leader, and has claimed a group. -/
  | claimed (batches : List (Prepared S))
  /-- It has returned. -/
  | returned (result : Result ℕ)

/-- The queue with everyone who uses it. Requests are numbered as they are submitted. -/
structure Commits where
  queue : Queue S
  /-- There is a leader. -/
  running : Bool
  next : ℕ
  requests : ℕ → Request S
  callers : ℕ → Caller S
  /-- The sequence of the database. -/
  lsn : ℕ
  cancels : List ℕ
  groups : List (List (Prepared S))
  answers : List (ℕ × Result ℕ)

variable {S}

/-- Bounds that `GroupCommit` validates. -/
def GroupCommit.Valid (bounds : GroupCommit) : Prop :=
  0 < bounds.maxTransactions ∧ 0 < bounds.maxBytes

/-- A leader takes the transactions out of the requests it claims. -/
def claimRequests (batches : List (Prepared S)) (requests : ℕ → Request S) (i : ℕ) : Request S :=
  if i ∈ batches.map Prepared.id then { requests i with batch := none } else requests i

/-- Results reach the requests. -/
def answerRequests (answers : List (ℕ × Result ℕ)) (requests : ℕ → Request S) (i : ℕ) :
    Request S :=
  match answers.find? fun answer => answer.1 = i with
  | some answer => { requests i with result := some answer.2 }
  | none => requests i

/-- **What a group gets**: the results of `run_group`, and the sequence of the database
behind it. The coordinator and the clock are what they are at that moment. -/
inductive Outcome (limits : Limits) (lsn : ℕ) (claimed : List (Prepared S)) :
    List (Prepared S × Result ℕ) → ℕ → Prop
  /-- Nothing is written. -/
  | rejected (c : Coordinator) (poisoned : Bool) (expired : ℕ → Bool) (walBytes : ℕ)
      (readings : GroupReadings) (accepted : List (Prepared S))
      (completed answers : List (Prepared S × Result ℕ))
      (hvalid : c.validateGroup poisoned expired ∅ c.catalogRevision claimed =
        (accepted, completed))
      (hfault : ∀ m, readings.fault ≠ some (.commitUnknown m))
      (hgroup : commitGroup poisoned lsn walBytes limits.wal readings accepted =
        some (answers, [])) :
      Outcome limits lsn claimed (completed ++ answers) lsn
  /-- The group is written and published. -/
  | written (c : Coordinator) (poisoned : Bool) (expired : ℕ → Bool) (walBytes : ℕ)
      (readings : GroupReadings) (accepted active : List (Prepared S))
      (completed answers : List (Prepared S × Result ℕ))
      (hvalid : c.validateGroup poisoned expired ∅ c.catalogRevision claimed =
        (accepted, completed))
      (hfault : ∀ m, readings.fault ≠ some (.commitUnknown m))
      (hgroup : commitGroup poisoned lsn walBytes limits.wal readings accepted =
        some (answers, active)) :
      Outcome limits lsn claimed (completed ++ (answers ++ published lsn active))
        (lsn + active.length)
  /-- The write or the sync fails. -/
  | failed (c : Coordinator) (poisoned : Bool) (expired : ℕ → Bool) (walBytes : ℕ)
      (readings : GroupReadings) (accepted active : List (Prepared S))
      (completed answers : List (Prepared S × Result ℕ)) (message : String)
      (hvalid : c.validateGroup poisoned expired ∅ c.catalogRevision claimed =
        (accepted, completed))
      (hfault : ∀ m, readings.fault ≠ some (.commitUnknown m))
      (hgroup : commitGroup poisoned lsn walBytes limits.wal readings accepted =
        some (answers, active)) :
      Outcome limits lsn claimed
        (completed ++ (answers ++ answerAll (.commitUnknown message) active)) lsn
  /-- The coordinator is poisoned, or the leader unwinds, whatever it has done by then. -/
  | dropped (lsn' : ℕ) (hlsn : lsn ≤ lsn') :
      Outcome limits lsn claimed (answerAll .needsRecovery claimed) lsn'

/-- **One step of a caller**, atomic under the mutex of the queue. -/
inductive Commits.Step (limits : Limits) : Commits S → Commits S → Prop
  | submit (m : Commits S) (batch : Prepared S) (queue : Queue S)
      (hid : batch.id = m.next) (hne : batch.isEmpty = false)
      (hsubmit : m.queue.submit limits.queue batch = .ok queue) :
      Step limits m
        { m with
          queue
          next := m.next + 1
          requests := Function.update m.requests m.next ⟨some batch, none, batch.bytes⟩
          callers := Function.update m.callers m.next .looping }
  /-- The caller finds its result, and returns it. -/
  | take (m : Commits S) (i : ℕ) (result : Result ℕ)
      (hcaller : m.callers i = .looping) (hresult : (m.requests i).result = some result) :
      Step limits m
        { m with
          requests := Function.update m.requests i { m.requests i with result := none }
          callers := Function.update m.callers i (.returned result) }
  /-- The deadline has passed, and nobody has claimed the request. -/
  | cancel (m : Commits S) (i : ℕ) (batch : Prepared S)
      (hcaller : m.callers i = .looping) (hresult : (m.requests i).result = none)
      (hbatch : (m.requests i).batch = some batch) :
      Step limits m
        { m with
          queue := m.queue.cancel batch
          requests := Function.update m.requests i
            { m.requests i with batch := none, result := some (.error .deadlineExceeded) }
          cancels := m.cancels ++ [i]
          answers := m.answers ++ [(i, .error .deadlineExceeded)] }
  /-- The caller becomes the leader. -/
  | lead (m : Commits S) (i : ℕ)
      (hcaller : m.callers i = .looping) (hresult : (m.requests i).result = none)
      (hrunning : m.running = false) :
      Step limits m
        { m with running := true, callers := Function.update m.callers i .leading }
  /-- The leader gives up before it has the coordinator. -/
  | giveUp (m : Commits S) (i : ℕ) (hcaller : m.callers i = .leading) :
      Step limits m
        { m with running := false, callers := Function.update m.callers i .looping }
  /-- The leader claims a group. -/
  | claim (m : Commits S) (i : ℕ) (hcaller : m.callers i = .leading) :
      Step limits m
        { m with
          queue := m.queue.rest limits.group
          requests := claimRequests (m.queue.claim limits.group) m.requests
          callers := Function.update m.callers i (.claimed (m.queue.claim limits.group))
          groups := m.groups ++ [m.queue.claim limits.group] }
  /-- The group gets its results, and leadership is handed back. -/
  | finish (m : Commits S) (i : ℕ) (batches : List (Prepared S))
      (final : List (Prepared S × Result ℕ)) (lsn : ℕ)
      (hcaller : m.callers i = .claimed batches)
      (houtcome : Outcome limits m.lsn batches final lsn) :
      Step limits m
        { m with
          queue := m.queue.finish (final.map Prod.fst)
          running := false
          requests := answerRequests (final.map fun x => (x.1.id, x.2)) m.requests
          callers := Function.update m.callers i .looping
          lsn
          answers := m.answers ++ final.map fun x => (x.1.id, x.2) }

variable (S) in
/-- An empty queue. -/
def Commits.initial (lsn : ℕ) : Commits S where
  queue := ⟨[], 0, 0⟩
  running := false
  next := 0
  requests := fun _ => ⟨none, none, 0⟩
  callers := fun _ => .absent
  lsn
  cancels := []
  groups := []
  answers := []

/-- **The states the queue can reach.** -/
inductive Commits.Reachable (limits : Limits) : Commits S → Prop
  | initial (lsn : ℕ) : Reachable limits (Commits.initial S lsn)
  | step {m m' : Commits S} : Reachable limits m → Step limits m m' → Reachable limits m'

end EveDB
