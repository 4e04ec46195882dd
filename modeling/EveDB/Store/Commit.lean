import EveDB.Store.Database

/-!
# Group commit

How a group of batches is committed (`database.rs`, `Prepared::commit_group`). The staged
histories are bound to the current root, since a checkpoint may have moved them; then the loop
of the preparation drops what has expired, gives the others consecutive sequences and encodes
their frames, until all of them are found in time once more; then the frames are written and
synced together, and the batches are published one after another.

A member of the group keeps its place, and stops being active when it has its answer.
-/

namespace EveDB.Store

open Fallible

/-! ### Rebinding -/

/-- The reservation of a batch that reads storage, and how often it has looked around. -/
structure Account where
  reservation : Reservation
  ticks : ℕ

variable (env : Env)

/-- Answers what the rebinding of a batch asks for; unlike in a recovery, decoded memory can be
refused. -/
def Account.answer (request : Request) : Fallible Error Account Unit := fun a =>
  let later := { a with ticks := a.ticks + 1 }
  match request with
  | .scratch bytes => (env.scratch a.ticks bytes, later)
  | .memory bytes => (env.memory a.ticks bytes, later)
  | .decoded bytes => (env.decoded a.ticks bytes, later)
  | .charge bytes =>
    (do
      check "transaction decoded bytes" a.reservation.decodedBytes bytes
        env.limits.maxTransactionDecodedBytes
      check "resident decoded write bytes" (env.usage a.ticks).decodedWriteBytes bytes
        env.limits.maxResidentDecodedWriteBytes,
     { later with reservation :=
        { a.reservation with decodedBytes := a.reservation.decodedBytes + bytes } })

/-- The root an entity's history is bound to. -/
def EntityData.generation (data : EntityData) : Option ℕ :=
  data.disk.map fun disk => disk.root.manifest.generation

/-- **Binds the staged history of an entity to a root.** What the root holds of it is dropped from
memory. -/
def EntityData.rebind (root : Checkpoint) (generation : ℕ) (key : ℕ × ℕ) (data : EntityData) :
    Reading EntityData :=
  if generation ≠ root.manifest.generation ∨
      data.generation.any fun bound => bound ≠ root.manifest.generation then do
    match ← root.entity false key.1 key.2 with
    | some persisted => do
      let through := persisted.current.version
      let snapshots := retainFrom data.snapshots through
      match snapshots[through]? with
      | some snapshot => Guarded.ask (.charge (entityBytes snapshot))
      | none => pure ()
      return { data with
        committed := retainAbove data.committed through
        snapshots
        disk := persisted.disk }
    | none => return data
  else return data

/-- Binds staged entities, one after another. -/
def rebindAll (root : Checkpoint) (generation : ℕ) :
    List ((ℕ × ℕ) × EntityData) → SortedMap (ℕ × ℕ) EntityData →
      Reading (SortedMap (ℕ × ℕ) EntityData)
  | [], staged => return staged
  | (key, data) :: rest, staged => do
    let data ← data.rebind root generation key
    rebindAll root generation rest (staged.insert key data)

namespace Prepared

/-- Binds a batch to a root. -/
def rebind (root : Checkpoint) (batch : Prepared) : Fallible Error ℕ Prepared := fun tick =>
  let reading := rebindAll root batch.rootGeneration batch.staged.toList batch.staged
  match (reading.run (Account.answer env)).run ⟨batch.reservation, tick⟩ with
  | (.ok staged, account) =>
    (.ok { batch with
        staged, reservation := account.reservation, rootGeneration := root.manifest.generation },
     account.ticks)
  | (.error e, account) => (.error e, account.ticks)

/-- Stamps the events of the transaction with a sequence. -/
def restamp (lsn : ℕ) (batch : Prepared) : Prepared :=
  { batch with staged := batch.staged.map fun _ data =>
      { data with events := data.events.map fun event =>
          if batch.baseSequence < event.transaction then { event with transaction := lsn }
          else event } }

end Prepared

/-! ### The loop of the preparation -/

/-- A member of a group. -/
structure Member where
  batch : Prepared
  answer : Option (Result ℕ)

/-- The member has no answer yet. -/
def Member.active (m : Member) : Bool := m.answer.isNone

/-- Binds the members of a group to a root. -/
def rebindGroup (root : Checkpoint) : List Prepared → Fallible Error ℕ (List Member)
  | [] => return []
  | batch :: batches => do
    let batch ← batch.rebind env root
    let members ← rebindGroup root batches
    return ⟨batch, none⟩ :: members

/-- What a batch is answered when the loop comes by. -/
def verdict (tick : ℕ) (batch : Prepared) : Option (Result ℕ) :=
  if expired batch.deadline (env.now tick) then some (.error .deadlineExceeded)
  else if batch.isEmpty then some (.ok batch.baseSequence)
  else none

/-- Answers the members whose deadlines have passed, and the empty ones. -/
def settle : ℕ → List Member → List Member × ℕ
  | tick, [] => ([], tick)
  | tick, m :: ms =>
    if m.active then
      let answer := verdict env tick m.batch
      let (ms, tick) := settle (tick + 1) ms
      ({ m with answer } :: ms, tick)
    else
      let (ms, tick) := settle tick ms
      (m :: ms, tick)

/-- Gives the active members the sequences behind `lsn`, and encodes their frames. -/
def stamp (lsn : ℕ) : ℕ → List Member → Result (List Member × List Bytes)
  | _, [] => return ([], [])
  | offset, m :: ms =>
    if m.active then
      match checkedAdd lsn (offset + 1) with
      | none => .error (.invalid "transaction sequence exhausted")
      | some sequence => do
        let batch := m.batch.restamp sequence
        let frame ← Frame.encode 2 sequence (encodeOps batch.operations)
        let (ms, frames) ← stamp lsn (offset + 1) ms
        return ({ m with batch } :: ms, frame :: frames)
    else do
      let (ms, frames) ← stamp lsn offset ms
      return (m :: ms, frames)

/-- Whether all active members are in time, up to the first one that is not. -/
def inTime : ℕ → List Member → Bool × ℕ
  | tick, [] => (true, tick)
  | tick, m :: ms =>
    if m.active then
      if expired m.batch.deadline (env.now tick) then (false, tick + 1) else inTime (tick + 1) ms
    else inTime tick ms

/-- **The loop of the preparation**, with the number of rounds it is given. It ends with the
frames of the members that are still active, or with an error for them. -/
def rounds (lsn : ℕ) : ℕ → ℕ → List Member → Option (Result (List Bytes) × List Member)
  | 0, _, _ => none
  | fuel + 1, tick, ms =>
    let (ms, tick) := settle env tick ms
    match stamp lsn 0 ms with
    | .error e => some (.error e, ms)
    | .ok (ms, frames) =>
      match inTime env tick ms with
      | (true, _) => some (.ok frames, ms)
      | (false, tick) => rounds lsn fuel tick ms

/-! ### Writing and publishing -/

/-- Answers the active members alike. -/
def refuse (e : Error) (ms : List Member) : List Member :=
  ms.map fun m => if m.active then { m with answer := some (.error e) } else m

/-- Publishes the active members under the sequences behind `lsn`. -/
def publishAll : ℕ → List Member → Database → List Member × Database
  | _, [], db => ([], db)
  | lsn, m :: ms, db =>
    if m.active then
      let (ms, db) := publishAll (lsn + 1) ms (m.batch.publishState (lsn + 1) db)
      ({ m with answer := some (.ok (lsn + 1)) } :: ms, db)
    else
      let (ms, db) := publishAll lsn ms db
      (m :: ms, db)

/-- How the write of the frames ends: all of them written and synced, or an I/O error behind
`written` bytes. -/
structure WalWrite where
  written : ℕ
  failure : Option String

/-- A write without failure. -/
def WalWrite.done : WalWrite where
  written := 0
  failure := none

/-- Writes the frames of the active members, and publishes these. -/
def writeGroup (write : WalWrite) (frames : List Bytes) (ms : List Member) (db : Database) :
    List Member × Database :=
  let bytes := (frames.map List.length).sum
  if db.options.limits.maxUncheckpointedWalBytes < saturatingAdd db.walBytes bytes then
    (refuse (.limitExceeded "uncheckpointed WAL bytes"
      db.options.limits.maxUncheckpointedWalBytes) ms, db)
  else if frames.isEmpty then (ms, db)
  else
    match write.failure with
    | some message =>
      (refuse (.commitUnknown message) ms,
       { db with wal := db.wal ++ frames.flatten.take write.written, poisoned := true })
    | none =>
      let (ms, db) := publishAll db.state.lsn ms
        { db with wal := db.wal ++ frames.flatten, walBytes := wrappingAdd db.walBytes bytes }
      (ms, { db with published := db.state })

/-- **Commits a group of batches.** A checkpoint may be due first, when commits do not come in
groups; what it does is given. -/
def commitGroup (checkpoint : Database → Result Unit × Database) (write : WalWrite) (tick : ℕ)
    (batches : List Prepared) (db : Database) : List (Option (Result ℕ)) × Database :=
  let fresh := batches.map fun batch => (⟨batch, none⟩ : Member)
  let answers := fun (ms, db) => (ms.map Member.answer, db)
  if db.poisoned ∨ env.poisoned tick then answers (refuse .needsRecovery fresh, db)
  else
    let due := ¬ db.sharedMode ∧ db.options.checkpointBytes ≤ db.wal.length ∧
      db.state.root.manifest.lsn < db.state.lsn
    match (if due then checkpoint db else (.ok (), db)) with
    | (.error e, db) => answers (refuse e fresh, db)
    | (.ok (), db) =>
      match (rebindGroup env db.state.root batches).run (tick + 1) with
      | (.error e, _) => answers (refuse e fresh, db)
      | (.ok ms, tick) =>
        match rounds env db.state.lsn (ms.length + 1) tick ms with
        | none => answers (ms, db)
        | some (.error e, ms) => answers (refuse e ms, db)
        | some (.ok frames, ms) => answers (writeGroup write frames ms db)

/-- Commits a batch by itself. -/
def Prepared.commit (checkpoint : Database → Result Unit × Database) (write : WalWrite)
    (tick : ℕ) (batch : Prepared) (db : Database) : Option (Result ℕ) × Database :=
  let (answers, db) := commitGroup env checkpoint write tick [batch] db
  (answers.getLast?.join, db)

end EveDB.Store
