import EveDB.Model.Operation
import EveDB.Store.History
import EveDB.Store.Options

/-!
# Staging

How a transaction stages its operations (`database.rs`, `Staging`). Each operation is charged,
executed on the staged entities, which are loaded from the base view when they are first
needed, and recorded. The operation that fails is not recorded, and leaves the transaction
failed (`Staging.run`).

`Staging.maintain` adds the automatic snapshot and retention operations of a write. A recovery
transaction, one without a permit, is charged but never refused.
-/

namespace EveDB.Store

/-- What a transaction has reserved. -/
structure Reservation where
  bytes : ℕ
  decodedBytes : ℕ

/-- **The staged part of a transaction.** -/
structure Staging where
  base : ReadState
  options : Options
  /-- It holds a transaction permit; a recovery transaction does not. -/
  permit : Bool
  reservation : Reservation
  catalog : Catalog
  staged : SortedMap (ℕ × ℕ) EntityData
  operations : List Operation
  failed : Bool
  /-- How often it has looked at its surroundings. -/
  ticks : ℕ

/-- A step of a transaction. -/
abbrev Stage (α : Type) := Fallible Error Staging α

variable (env : Env)

/-- Takes the permit and the reservation of a transaction. -/
def admitTransaction (recovery : Bool) (tick : ℕ) : Result Unit :=
  if recovery then .ok ()
  else do
    check "active transactions" (env.usage tick).transactions 1 env.limits.maxTransactions
    check "resident mutation bytes" (env.usage (tick + 1)).residentWriteBytes 8
      env.limits.maxResidentWriteBytes

namespace Staging

/-- **A new transaction** on a view. -/
def new (base : ReadState) (options : Options) (recovery : Bool) (tick : ℕ) : Result Staging := do
  admitTransaction env recovery tick
  return { base, options, permit := !recovery, reservation := ⟨8, 0⟩, catalog := base.catalog,
           staged := ∅, operations := [], failed := false, ticks := tick + 2 }

/-- The transaction after one more look at its surroundings. -/
def looked (s : Staging) : Staging := { s with ticks := s.ticks + 1 }

/-- The next look at the surroundings. -/
def tick : Stage ℕ := fun s => (.ok s.ticks, s.looked)

/-- Fails when a storage failure has closed the database. -/
def ready : Stage Unit := do
  let i ← tick
  Fallible.lift (if env.poisoned i then .error .needsRecovery else .ok ())

/-- Puts decoded memory on the account. -/
def growDecoded (bytes : ℕ) : Stage Unit := do
  let i ← tick
  let s ← get
  Fallible.lift (if s.permit then do
      check "transaction decoded bytes" s.reservation.decodedBytes bytes
        env.limits.maxTransactionDecodedBytes
      check "resident decoded write bytes" (env.usage i).decodedWriteBytes bytes
        env.limits.maxResidentDecodedWriteBytes
    else .ok ())
  modify fun s =>
    { s with reservation := { s.reservation with
        decodedBytes := s.reservation.decodedBytes + bytes } }

/-- Puts encoded bytes on the account, without asking. -/
def recover (bytes : ℕ) : Stage Unit := modify fun s =>
  { s with reservation := { s.reservation with bytes := s.reservation.bytes + bytes } }

/-- Puts encoded bytes on the account. -/
def grow (bytes : ℕ) : Stage Unit := do
  let i ← tick
  Fallible.lift (check "resident mutation bytes" (env.usage i).residentWriteBytes bytes
    env.limits.maxResidentWriteBytes)
  recover bytes

/-- Answers what a read of this transaction asks for. -/
def answer (request : Request) : Stage Unit :=
  match request with
  | .scratch bytes => do Fallible.lift (env.scratch (← tick) bytes)
  | .memory bytes => do Fallible.lift (env.memory (← tick) bytes)
  | .decoded bytes => do Fallible.lift (env.decoded (← tick) bytes)
  | .charge bytes => growDecoded env bytes

/-- Reads on behalf of this transaction. -/
def read {α : Type} (reading : Reading α) : Stage α := reading.run (answer env)

/-- The staged definition of a table. -/
def table (id : ℕ) : Stage Table := do Fallible.lift ((← get).catalog.table id)

/-- The newest schema of a table; a table of a catalog has one. -/
def latest (table : Table) : Result Schema :=
  match table.schema with
  | some schema => .ok schema
  | none => .error (.invalid "validated schema history")

/-- The decoded memory an operation is charged for before it is executed. -/
def cost (operation : Operation) : Stage ℕ := do
  match operation with
  | .create t _ fields => do
    let schema ← Fallible.lift (latest (← table t))
    return 3 * fieldsBytes fields + 2 * schema.fields.length * fieldAllowance + 256
  | .apply _ _ fields => return 3 * fieldsBytes fields + 256
  | .snapshot t id | .retain t id _ => do
    let data := (← get).staged[(t, id)]?
    return (data.elim 0 fun data => entityBytes data.current) + 256
  | .table t =>
    return operation.encodedLen * 3 +
      (t.schemas.map fun schema => schema.fields.length * fieldAllowance).sum * 2
  | .delete .. => return 256

/-- Reserves the encoded bytes of an operation. -/
def reserve (operation : Operation) : Stage Unit := do
  let s ← get
  let bytes := operation.encodedLen
  if s.permit then do
    Fallible.lift (do
      check "transaction operations" s.operations.length 1
        s.options.limits.maxTransactionOperations
      check "transaction bytes" s.reservation.bytes bytes s.options.limits.maxTransactionBytes)
    grow env bytes
  else recover bytes

/-- Charges an operation. -/
def charge (operation : Operation) : Stage Unit := do
  growDecoded env (← cost operation)
  reserve env operation

/-! ### Executing an operation -/

/-- Replaces a staged entity. -/
def put (key : ℕ × ℕ) (data : EntityData) : Stage Unit :=
  modify fun s => { s with staged := s.staged.insert key data }

/-- Loads an entity of the base view when it is first needed. -/
def loadStaged (key : ℕ × ℕ) : Stage Unit := do
  let s ← get
  if ¬ s.staged.contains key ∧ s.base.catalog.contains key.1 then do
    match ← read env (s.base.loadCharged true key.1 key.2) with
    | some data => put key data
    | none => pure ()

/-- The staged entity under a key. -/
def data (key : ℕ × ℕ) : Stage EntityData := do
  match (← get).staged[key]? with
  | some data => return data
  | none => Fallible.lift (.error (.notFound ("entity " ++ toString key.2)))

/-- Bounds a row that is created. -/
def checkCreated (limits : Limits) (fields : Fields) : Result Unit := do
  check "decoded record bytes" 0 (entitySize + fieldsBytes fields) limits.maxDecodedRecordBytes
  check "encoded record bytes" 0 (25 + fieldsEncodedLen fields) maxRecord

/-- Bounds a row that is changed, and the event that changes it. -/
def checkApplied (limits : Limits) (current fields : Fields) : Result Unit := do
  let (decoded, encoded) := mergedSizes current fields
  check "decoded record bytes" 0 decoded limits.maxDecodedRecordBytes
  check "decoded record bytes" 0 (eventSize + fieldsBytes fields) limits.maxDecodedRecordBytes
  check "encoded record bytes" 0 encoded maxRecord

/-- Creates an entity. -/
def executeCreate (table : Table) (key : ℕ × ℕ) (fields : Fields) : Stage Unit := do
  let s ← get
  if s.staged.contains key then
    Fallible.lift (.error (.alreadyExists ("entity " ++ toString key.2)))
  else do
    let schema ← Fallible.lift (latest table)
    let fields ← Fallible.lift (schema.normalize fields true)
    Fallible.lift (if s.permit then checkCreated s.options.limits fields else .ok ())
    let current : Entity :=
      { id := key.2, version := 0, schemaVersion := schema.version, deleted := false, fields }
    put key { current, base := current, events := [], committed := ∅, snapshots := ∅, disk := none }

/-- The event a write adds to an entity. -/
def nextEvent (base : ReadState) (schema : Schema) (id : ℕ) (current : Entity) (kind : EventKind)
    (fields : Fields) : Result Event :=
  if current.deleted then .error (.invalid ("entity " ++ toString id ++ " is deleted"))
  else
    match checkedAdd current.version 1 with
    | none => .error (.invalid "entity versions exhausted")
    | some version =>
      match checkedAdd base.lsn 1 with
      | none => .error (.invalid "transaction sequence exhausted")
      | some transaction =>
        .ok { version, transaction, schemaVersion := schema.version, kind, fields }

/-- Adds an event to an entity. -/
def addEvent (table : Table) (key : ℕ × ℕ) (kind : EventKind) (fields : Fields) :
    Stage Unit := do
  let data ← data key
  let schema ← Fallible.lift (latest table)
  let event ← Fallible.lift (nextEvent (← get).base schema key.2 data.current kind fields)
  let current ← Fallible.lift (applyEvent data.current event table)
  put key { data with current, events := data.events ++ [event] }

/-- Applies assignments to an entity. -/
def executeApply (table : Table) (key : ℕ × ℕ) (fields : Fields) : Stage Unit := do
  let data ← data key
  if fields.isEmpty then Fallible.lift (.error (.invalid "an apply needs at least one field"))
  else do
    let schema ← Fallible.lift (latest table)
    let fields ← Fallible.lift (schema.normalize fields false)
    let s ← get
    Fallible.lift
      (if s.permit then checkApplied s.options.limits data.current.fields fields else .ok ())
    addEvent table key .apply fields

/-- Takes the staged current state onto the account before it is copied. -/
def chargeStaged (key : ℕ × ℕ) : Stage Unit := do
  match (← get).staged[key]? with
  | some data => growDecoded env (entityBytes data.current)
  | none => pure ()

/-- Executes an operation on an entity. -/
def executeOn (table : Table) (key : ℕ × ℕ) (operation : Operation) : Stage Unit := do
  match operation with
  | .table _ => pure ()
  | .create _ _ fields => executeCreate table key fields
  | .apply _ _ fields => executeApply table key fields
  | .delete .. => addEvent table key .delete ∅
  | .retain _ _ count => do
    chargeStaged env key
    let data ← data key
    put key (← read env (data.retain table count))
  | .snapshot .. => do
    chargeStaged env key
    let data ← data key
    put key { data with snapshots := data.snapshots.insert data.current.version data.current }

/-- Executes an operation. -/
def execute (operation : Operation) : Stage Unit := do
  match operation, operation.entityKey with
  | .table t, _ => do
    let catalog ← Fallible.lift ((← get).catalog.change t)
    modify fun s => { s with catalog }
  | operation, some key => do
    let table ← table key.1
    loadStaged env key
    executeOn env table key operation
  | _, none => pure ()

/-- Charges and executes an operation. -/
def attempt (operation : Operation) : Stage Unit := do
  charge env operation
  execute env operation

/-- Fails when an earlier operation has. -/
def intact : Stage Unit := do
  Fallible.lift (if (← get).failed then
      .error (.invalid "transaction was aborted by an earlier operation")
    else .ok ())

/-- Records an operation that succeeds, and marks the transaction failed when it does not. -/
def record (operation : Operation) : Stage Unit := fun s =>
  match (attempt env operation).run s with
  | (.ok (), s) => (.ok (), { s with operations := s.operations ++ [operation] })
  | (.error e, s) => (.error e, { s with failed := true })

/-- **Runs an operation.** -/
def run (operation : Operation) : Stage Unit := do
  ready env
  intact
  record env operation

/-! ### The calls of a transaction -/

/-- The staged definition of a table that is about to be written. -/
def tableForWrite (id : ℕ) : Stage Table := fun s =>
  match s.catalog.table id with
  | .ok table => (.ok table, s)
  | .error e => (.error e, { s with failed := true })

/-- Creates a table under the next identifier. -/
def createTable (name : String) (schema : Schema) : Stage ℕ := do
  let table ← Fallible.lift ((← get).catalog.createTable name schema)
  run env (.table table)
  return table.id

/-- Renames a table. -/
def renameTable (id : ℕ) (name : String) : Stage Unit := do
  let table ← tableForWrite id
  run env (.table { table with name })

/-- Adds a schema version to a table. -/
def alterTable (id : ℕ) (fields : List Field) : Stage Unit := do
  let _ ← tableForWrite id
  let table ← Fallible.lift ((← get).catalog.alterTable id fields)
  run env (.table table)

/-- Creates an entity at version zero. -/
def create (table id : ℕ) (fields : Fields) : Stage Unit := run env (.create table id fields)

/-- Moves the retained base forward and keeps at most `count` subsequent events. -/
def retainLast (table id count : ℕ) : Stage Unit := run env (.retain table id count)

/-- Saves an acceleration snapshot of the staged current state. -/
def snapshot (table id : ℕ) : Stage Unit := run env (.snapshot table id)

/-- The automatic snapshot and retention behind a write. -/
def maintain (table id : ℕ) : Stage Unit := do
  let s ← get
  let interval := s.options.snapshotInterval
  let version := s.staged[(table, id)]?.elim 0 fun data => data.current.version
  (if interval ≠ 0 ∧ version % interval = 0 then snapshot env table id else pure ())
  match s.options.retainEvents with
  | some count => retainLast env table id count
  | none => pure ()

/-- Applies assignments, producing a version of its own. -/
def apply (table id : ℕ) (fields : Fields) : Stage Unit := do
  run env (.apply table id fields)
  maintain env table id

/-- Ends the active life of an entity. -/
def delete (table id : ℕ) : Stage Unit := do
  run env (.delete table id)
  maintain env table id

end Staging

end EveDB.Store
