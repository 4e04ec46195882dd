import EveDB.Model.Fields

/-!
# Entities and events

An entity state at one version, the events that take it from one version to the next, how both
are stored, and how much memory the engine charges for them when they are decoded.

`applyEvent` is the only way a state changes: the assigned fields replace the old ones, and the
row is completed against the schema the event was written under. What a stored record costs in
memory is read off its bytes before it is decoded (`recordBytes`), and agrees with what the
decoded record is charged for (`recordBytes_encodeEntity`).
-/

namespace EveDB

/-- An entity state at one version, including a deletion tombstone. -/
structure Entity where
  id : ℕ
  /-- Creation establishes version zero. -/
  version : ℕ
  /-- The schema that interprets the fields. -/
  schemaVersion : ℕ
  deleted : Bool
  fields : Fields

/-- The kind of an event. -/
inductive EventKind
  | apply
  | delete
  deriving DecidableEq, Repr

/-- One step in the history of an entity. -/
structure Event where
  /-- The entity version the event produces. -/
  version : ℕ
  /-- The sequence of its transaction. -/
  transaction : ℕ
  schemaVersion : ℕ
  kind : EventKind
  /-- Assigned values; omitted fields retain theirs. -/
  fields : Fields

/-- Takes a state through an event. -/
def applyEvent (state : Entity) (event : Event) (table : Table) : Result Entity :=
  if state.deleted ∨ checkedAdd state.version 1 ≠ some event.version then
    corrupt "invalid entity version or event after deletion"
  else do
    let schema ← table.version event.schemaVersion
    let fields ← schema.normalize (state.fields.insertMany event.fields.toList) true
    return { state with
      fields, schemaVersion := event.schemaVersion, version := event.version,
      deleted := event.kind = .delete }

/-! ### Memory -/

/-- The allowance for one field of a decoded row. -/
def fieldAllowance : ℕ := 128

/-- The size of an entity state without its fields. -/
def entitySize : ℕ := 56

/-- The size of an accounted event without its fields. -/
def eventSize : ℕ := 80

/-- What a value holds outside its field. -/
def valueBytes : Value → ℕ
  | .text text => text.utf8ByteSize
  | .bytes bytes => bytes.length
  | _ => 0

/-- What decoded fields are charged for. -/
def fieldsBytes (fields : Fields) : ℕ :=
  (fields.toList.map fun (_, value) => fieldAllowance + valueBytes value).sum

/-- What a decoded state is charged for. -/
def entityBytes (entity : Entity) : ℕ := entitySize + fieldsBytes entity.fields

/-- What a decoded event is charged for. -/
def eventBytes (event : Event) : ℕ := eventSize + fieldsBytes event.fields

/-- The decoded and the encoded size of a state whose fields are overlaid with changes. -/
def mergedSizes (current changes : Fields) : ℕ × ℕ :=
  let values := (current.toList.map fun (id, value) => (changes[id]?).getD value) ++
    (changes.toList.filter fun (id, _) => ¬ current.contains id).map Prod.snd
  (entitySize + (values.map fun value => fieldAllowance + valueBytes value).sum,
   25 + 8 + (values.map fun value => 5 + valueEncodedLen value).sum)

/-! ### Records -/

/-- The bytes of a state. -/
def encodeEntity (value : Entity) : Bytes :=
  Encoder.u64 value.id ++ (Encoder.u64 value.version ++ (Encoder.u64 value.schemaVersion ++
    (Encoder.bool value.deleted ++ encodeFields value.fields)))

/-- The byte of an event kind. -/
def EventKind.tag : EventKind → ℕ
  | .apply => 0
  | .delete => 1

/-- The bytes of an event. -/
def encodeEvent (value : Event) : Bytes :=
  Encoder.u64 value.version ++ (Encoder.u64 value.transaction ++
    (Encoder.u64 value.schemaVersion ++ (Encoder.u8 value.kind.tag ++ encodeFields value.fields)))

/-- Decodes a state. -/
def decodeEntity (data : Bytes) : Result Entity := Decoder.decode (do
  let id ← Decoder.u64
  let version ← Decoder.u64
  let schemaVersion ← Decoder.u64
  let deleted ← Decoder.bool "invalid tombstone"
  let fields ← decodeFields
  return { id, version, schemaVersion, deleted, fields }) data

/-- Reads an event kind. -/
def decodeEventKind : Decoder EventKind := do
  match ← Decoder.u8 with
  | 0 => return .apply
  | 1 => return .delete
  | _ => Decoder.fail "invalid event kind"

/-- Decodes an event. -/
def decodeEvent (data : Bytes) : Result Event := Decoder.decode (do
  let version ← Decoder.u64
  let transaction ← Decoder.u64
  let schemaVersion ← Decoder.u64
  let kind ← decodeEventKind
  let fields ← decodeFields
  return { version, transaction, schemaVersion, kind, fields }) data

/-- Reads over a value, and returns what it holds outside its field. -/
def skipValue : Decoder ℕ := do
  match ← Decoder.u8 with
  | 0 => return 0
  | 1 => do
    let _ ← Decoder.u8
    return 0
  | 2 | 3 | 4 => do
    let _ ← Decoder.u64
    return 0
  | 5 | 6 => return (← Decoder.bytes).length
  | _ => Decoder.fail "unknown value tag"

/-- Adds to a size that has to stay within 64 bits. -/
def growSize (size additional : ℕ) : Decoder ℕ :=
  match checkedAdd size additional with
  | some size => return size
  | none => Decoder.fail "decoded size overflow"

/-- Adds the memory of the next assignment. -/
def skipAssignment (size : ℕ) : Decoder ℕ := do
  let _ ← Decoder.u32
  growSize size (← skipValue)

/-- The memory a stored record takes when it is decoded, from its lengths and tags alone. -/
def recordBytes (data : Bytes) (overhead : ℕ) : Result ℕ := Decoder.decode (do
  let _ ← Decoder.u64
  let _ ← Decoder.u64
  let _ ← Decoder.u64
  let _ ← Decoder.u8
  let n ← Decoder.count 5
  let size ← growSize overhead (n * fieldAllowance)
  Decoder.times skipAssignment n size) data

end EveDB
