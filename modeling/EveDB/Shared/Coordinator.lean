import EveDB.Recovery.System
import EveDB.Library.SortedMap

/-!
# The commit queue and the coordinator

Transactions of a shared database are staged on their own, each against the view it
began with, and meet only when they commit. A finished one waits in the `Queue`; the
leader of a group claims a prefix of it and, holding the coordinator, does three things.

* **Validation** (`Coordinator.validateGroup`) compares each member with the revisions
  installed since its view: a key written later, or a table operation later, is a
  conflict, and so is a key of an earlier member of the same group. Only the comparison
  matters at this point, so the members of the group stand with a placeholder revision
  that is above every sequence.
* **The group commit** (`commitGroup`) drops what has expired, encodes the rest under
  consecutive sequences and admits the frames to the log, or rejects all of them.
* **The record** (`Coordinator.record`) installs the sequences of the published members
  as the revisions of their keys.

A revision is needed as long as a view from before it may still commit;
`Coordinator.pruneRevisions` drops the ones that no live view is older than.

Clock readings are arguments: which deadlines a loop finds passed in each of its rounds
is a `Round`.
-/

namespace EveDB

variable {E : Engine}

/-- A table and an identifier in it. -/
abbrev EntityKey := ℕ × ℕ

/-- A committed view: its sequence, and the state it denotes. -/
structure View (S : Semantics E) where
  lsn : ℕ
  state : S.State

/-- A transaction that is ready to commit. -/
structure Prepared (S : Semantics E) where
  /-- Tells transactions apart. -/
  id : ℕ
  /-- The view it was staged against; its sequence is the base sequence. -/
  base : View S
  /-- The entities it has staged. -/
  keys : List EntityKey
  /-- One of its operations defines a table. -/
  changesCatalog : Bool
  /-- It has no operation. -/
  isEmpty : Bool
  /-- Its encoded operations. -/
  payload : Bytes
  /-- The bytes it has reserved. -/
  bytes : ℕ

variable {S : Semantics E}

/-! ### The queue -/

/-- Limits one shared flush. -/
structure GroupCommit where
  maxTransactions : ℕ
  maxBytes : ℕ

/-- The admission limits of the queue. -/
structure QueueLimits where
  maxQueuedCommits : ℕ
  maxQueuedCommitBytes : ℕ

variable (S) in
/-- The transactions that wait for a leader, and the totals of these and the claimed
ones. -/
structure Queue where
  waiting : List (Prepared S)
  count : ℕ
  bytes : ℕ

namespace Queue

/-- Admits a transaction to the queue. -/
def submit (limits : QueueLimits) (batch : Prepared S) (queue : Queue S) : Result (Queue S) := do
  check "queued commits" queue.count 1 limits.maxQueuedCommits
  check "queued commit bytes" queue.bytes batch.bytes limits.maxQueuedCommitBytes
  return { waiting := queue.waiting ++ [batch], count := queue.count + 1,
           bytes := queue.bytes + batch.bytes }

/-- Withdraws a transaction that has not been claimed. -/
def cancel (batch : Prepared S) (queue : Queue S) : Queue S where
  waiting := queue.waiting.filter fun waiting => waiting.id ≠ batch.id
  count := queue.count - 1
  bytes := queue.bytes - batch.bytes

/-- How many of the waiting transactions fit behind `taken` claimed ones of `bytes`
bytes. -/
def claimed (bounds : GroupCommit) : ℕ → ℕ → List (Prepared S) → ℕ
  | _, _, [] => 0
  | taken, bytes, batch :: waiting =>
    if taken ≠ 0 ∧ (taken = bounds.maxTransactions ∨
        bounds.maxBytes < saturatingAdd bytes batch.bytes) then 0
    else claimed bounds (taken + 1) (bytes + batch.bytes) waiting + 1

/-- The transactions a leader claims: the first one in any case, and more within the
bounds. -/
def claim (bounds : GroupCommit) (queue : Queue S) : List (Prepared S) :=
  queue.waiting.take (claimed bounds 0 0 queue.waiting)

/-- The queue behind a claim. -/
def rest (bounds : GroupCommit) (queue : Queue S) : Queue S :=
  { queue with waiting := queue.waiting.drop (claimed bounds 0 0 queue.waiting) }

/-- Releases the claimed transactions. -/
def finish (batches : List (Prepared S)) (queue : Queue S) : Queue S :=
  batches.foldl (fun queue batch =>
    { queue with count := queue.count - 1, bytes := queue.bytes - batch.bytes }) queue

end Queue

/-! ### Validation -/

/-- What the coordinator remembers of the commits. -/
structure Coordinator where
  /-- The last sequence that wrote an entity, as far as it is still needed. -/
  revisions : SortedMap EntityKey ℕ
  catalogRevision : ℕ

/-- A shared database remembers nothing when it is opened. -/
def Coordinator.new : Coordinator where
  revisions := ∅
  catalogRevision := 0

namespace Coordinator

/-- The revision a key is compared with: the placeholder of the group if there is one. -/
def revision (c : Coordinator) (groupKeys : SortedMap EntityKey ℕ) (key : EntityKey) : Option ℕ :=
  (groupKeys[key]?).or (c.revisions[key]?)

/-- The first key that was written behind the base sequence. -/
def conflicting (c : Coordinator) (groupKeys : SortedMap EntityKey ℕ) (base : ℕ)
    (keys : List EntityKey) : Option EntityKey :=
  keys.find? fun key => (c.revision groupKeys key).any fun lsn => base < lsn

/-- Validates one member of a group. -/
def validate (c : Coordinator) (poisoned expired : Bool) (groupKeys : SortedMap EntityKey ℕ)
    (catalogRevision : ℕ) (batch : Prepared S) : Result Unit :=
  if poisoned then .error .needsRecovery
  else if expired then .error .deadlineExceeded
  else if catalogRevision > batch.base.lsn then .error (.conflict none none)
  else
    match c.conflicting groupKeys batch.base.lsn batch.keys with
    | some key => .error (.conflict (some key.1) (some key.2))
    | none => .ok ()

/-- Validates the members of a group in order: the accepted ones, and the others with
their errors. -/
def validateGroup (c : Coordinator) (poisoned : Bool) (expired : ℕ → Bool) :
    SortedMap EntityKey ℕ → ℕ → List (Prepared S) →
      List (Prepared S) × List (Prepared S × Result ℕ)
  | _, _, [] => ([], [])
  | groupKeys, catalogRevision, batch :: batches =>
    match c.validate poisoned (expired batch.id) groupKeys catalogRevision batch with
    | .error e =>
      let (accepted, completed) :=
        validateGroup c poisoned expired groupKeys catalogRevision batches
      (accepted, (batch, .error e) :: completed)
    | .ok () =>
      let groupKeys := batch.keys.foldl (fun keys key => keys.insert key maxU64) groupKeys
      let catalogRevision := if batch.changesCatalog then maxU64 else catalogRevision
      let (accepted, completed) :=
        validateGroup c poisoned expired groupKeys catalogRevision batches
      (batch :: accepted, completed)

/-- Installs the sequences of the members that were published. -/
def record (c : Coordinator) (answers : List (Prepared S × Result ℕ)) : Coordinator :=
  answers.foldl (fun c answer =>
    match answer.2 with
    | .ok sequence =>
      { revisions := answer.1.keys.foldl (fun keys key => keys.insert key sequence) c.revisions
        catalogRevision := if answer.1.changesCatalog then sequence else c.catalogRevision }
    | .error _ => c) c

/-- Drops the revisions that are not above `oldest`. -/
def pruneRevisions (oldest : ℕ) (c : Coordinator) : Coordinator :=
  { c with revisions := c.revisions.filter fun _ sequence => oldest < sequence }

end Coordinator

/-! ### The group commit -/

/-- Which deadlines have passed when a round of the loop looks at them: first as the
members are gone through, then again when the frames are encoded. -/
structure Round where
  expired : ℕ → Bool
  again : ℕ → Bool

/-- The members a round answers: expired ones, and empty ones. -/
def resolved (round : Round) (active : List (Prepared S)) : List (Prepared S × Result ℕ) :=
  active.filterMap fun batch =>
    if round.expired batch.id then some (batch, .error .deadlineExceeded)
    else if batch.isEmpty then some (batch, .ok batch.base.lsn)
    else none

/-- The members a round goes on with. -/
def remaining (round : Round) (active : List (Prepared S)) : List (Prepared S) :=
  active.filter fun batch => ¬ round.expired batch.id ∧ ¬ batch.isEmpty

/-- The frames of the members, under the sequences behind `lsn`. -/
def encodeFrames (lsn : ℕ) : ℕ → List (Prepared S) → Result (List Bytes)
  | _, [] => return []
  | offset, batch :: batches => do
    match checkedAdd lsn (offset + 1) with
    | none => .error (.invalid "transaction sequence exhausted")
    | some sequence =>
      let frame ← Frame.encode 2 sequence batch.payload
      let frames ← encodeFrames lsn (offset + 1) batches
      return frame :: frames

/-- The loop that drops expired members until all frames are encoded in time. It gives
the members it has answered, and what it ends with: an error for all others, or the
members to be written. -/
def prepareFrames (lsn : ℕ) : List Round → List (Prepared S) →
    Option (List (Prepared S × Result ℕ) × List (Prepared S) × Result (List Bytes))
  | [], _ => none
  | round :: rounds, active =>
    let rest := remaining round active
    match encodeFrames lsn 0 rest with
    | .error e => some (resolved round active, rest, .error e)
    | .ok frames =>
      if rest.all fun batch => ¬ round.again batch.id then
        some (resolved round active, rest, .ok frames)
      else do
        let (answers, last) ← prepareFrames lsn rounds rest
        return (resolved round active ++ answers, last)

/-- The readings a group commit depends on. -/
structure GroupReadings where
  /-- What a checkpoint inside the commit, or the rebinding of a member to the current
  root, fails with. -/
  fault : Option Error
  rounds : List Round

/-- Gives all members of a group the same error. -/
def answerAll (e : Error) (batches : List (Prepared S)) : List (Prepared S × Result ℕ) :=
  batches.map fun batch => (batch, .error e)

/-- **The preparation of a group commit**: the members it has answered, and the members
whose frames are to be written. -/
def commitGroup (poisoned : Bool) (lsn walBytes : ℕ) (limits : WalLimits)
    (readings : GroupReadings) (batches : List (Prepared S)) :
    Option (List (Prepared S × Result ℕ) × List (Prepared S)) :=
  if poisoned then some (answerAll .needsRecovery batches, [])
  else
    match readings.fault with
    | some e => some (answerAll e batches, [])
    | none =>
      match prepareFrames lsn readings.rounds batches with
      | none => none
      | some (answers, active, .error e) => some (answers ++ answerAll e active, [])
      | some (answers, active, .ok frames) =>
        if limits.maxUncheckpointedWalBytes <
            saturatingAdd walBytes (frames.map List.length).sum then
          some (answers ++ answerAll (.limitExceeded "uncheckpointed WAL bytes"
            limits.maxUncheckpointedWalBytes) active, [])
        else some (answers, active)

/-- The answers to the members that were written and published. -/
def published : ℕ → List (Prepared S) → List (Prepared S × Result ℕ)
  | _, [] => []
  | lsn, batch :: batches => (batch, .ok (lsn + 1)) :: published (lsn + 1) batches

end EveDB
