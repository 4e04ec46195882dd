import EveDB.Codec
import EveDB.Library.SortedMap

/-!
# Values, schemas and tables

The typed data model of `model.rs`: what a field may hold, what a schema accepts,
and how a table definition is stored.

`Schema.normalize` is the gate every row passes, when it is staged and again when
history is replayed: it type-checks the assigned fields and, for a complete row,
fills the omitted nullable ones. A table definition that passes the engine's own
checks (`Table.Valid`) is read back from its bytes (`Table.reads`).
-/

namespace EveDB

/-- A `BTreeMap` keyed by numbers. -/
abbrev BTreeMap (α : Type) := SortedMap ℕ α

/-- A field's declared type. -/
inductive DataType
  | bool
  | int64
  | uint64
  | float64
  | text
  | bytes
  deriving DecidableEq, Repr

/-- A typed field value. Null is distinct from an omitted assignment. A double is
given by its bits. -/
inductive Value
  | null
  | bool (v : Bool)
  | int64 (v : Int64)
  | uint64 (v : UInt64)
  | float64 (bits : UInt64)
  | text (v : String)
  | bytes (v : Bytes)
  deriving DecidableEq

/-- Assignments keyed by stable field identifier. -/
abbrev Fields := BTreeMap Value

/-- A field definition. -/
structure Field where
  /-- A nonzero stable identifier. -/
  id : ℕ
  name : String
  dataType : DataType
  /-- Whether explicit or default null is permitted. -/
  nullable : Bool
  deriving DecidableEq, Repr

/-- One version of a table's schema. -/
structure Schema where
  /-- Monotonically increasing version, starting at one. -/
  version : ℕ
  fields : List Field
  deriving DecidableEq, Repr

/-- A table definition with all schema versions needed by its history. -/
structure Table where
  id : ℕ
  name : String
  /-- Schema history in increasing version order. -/
  schemas : List Schema
  deriving DecidableEq, Repr

/-! ### Names -/

/-- The Unicode white-space characters. -/
def isWhiteSpace (c : Char) : Bool :=
  let n := c.toNat
  (9 ≤ n && n ≤ 13) || n = 32 || n = 0x85 || n = 0xa0 || n = 0x1680 ||
    (0x2000 ≤ n && n ≤ 0x200a) || n = 0x2028 || n = 0x2029 || n = 0x202f || n = 0x205f ||
    n = 0x3000

/-- The Unicode control characters. -/
def isControl (c : Char) : Bool := c.toNat < 32 || (127 ≤ c.toNat && c.toNat < 160)

/-- Checks the name of a table or a field. -/
def validateName (name : String) : Result Unit :=
  if name.toList.all isWhiteSpace ∨ name.utf8ByteSize > 255 ∨ name.toList.any isControl then
    .error (.invalid "names must contain 1..=255 UTF-8 bytes without control characters")
  else .ok ()

/-! ### Schemas -/

/-- Whether the bits of a double are those of a finite number. -/
def isFinite (bits : UInt64) : Bool := (bits >>> 52) &&& 0x7ff ≠ 0x7ff

/-- Whether a field may hold a value. -/
def Field.accepts (field : Field) : Value → Bool
  | .null => field.nullable
  | .bool _ => field.dataType = .bool
  | .int64 _ => field.dataType = .int64
  | .uint64 _ => field.dataType = .uint64
  | .text _ => field.dataType = .text
  | .bytes _ => field.dataType = .bytes
  | .float64 bits => field.dataType = .float64 && isFinite bits

/-- The bytes of a value behind its type. -/
def encodeValue : Value → Bytes
  | .null => Encoder.u8 0
  | .bool v => Encoder.u8 1 ++ Encoder.bool v
  | .int64 v => Encoder.u8 2 ++ Encoder.u64 v.toUInt64.toNat
  | .uint64 v => Encoder.u8 3 ++ Encoder.u64 v.toNat
  | .float64 bits => Encoder.u8 4 ++ Encoder.u64 bits.toNat
  | .text v => Encoder.u8 5 ++ Encoder.string v
  | .bytes v => Encoder.u8 6 ++ Encoder.bytes v

/-- The bytes of a row. -/
def encodeFields (fields : Fields) : Bytes :=
  Encoder.list (fun (id, value) => Encoder.u32 id ++ encodeValue value) fields.toList

namespace Schema

/-- Checks the fields from left to right against the identifiers and names seen. -/
def validateFields (ids : List ℕ) (names : List String) : List Field → Result Unit
  | [] => .ok ()
  | field :: fields => do
    validateName field.name
    if field.id = 0 ∨ field.id ∈ ids ∨ field.name ∈ names then
      .error (.invalid "field IDs and names must be unique and nonzero")
    else validateFields (field.id :: ids) (field.name :: names) fields

/-- Checks a schema. -/
def validate (schema : Schema) : Result Unit :=
  if schema.version = 0 ∨ schema.fields = [] ∨ schema.fields.length > 4096 then
    .error (.invalid "a schema needs a version and 1..=4096 fields")
  else validateFields [] [] schema.fields

/-- Type-checks the assigned fields in the order of their identifiers. -/
def checkFields (schema : Schema) : List (ℕ × Value) → Result Unit
  | [] => .ok ()
  | (id, value) :: rest =>
    match schema.fields.find? (fun f => f.id = id) with
    | none => .error (.invalid ("unknown field " ++ toString id))
    | some field =>
      if field.accepts value then checkFields schema rest
      else .error (.invalid ("wrong type or null for field " ++ toString id))

/-- Fills the omitted nullable fields of a row with null. -/
def complete : List Field → Fields → Result Fields
  | [], row => .ok row
  | field :: fields, row =>
    if row.contains field.id then complete fields row
    else if field.nullable then complete fields (row.insert field.id .null)
    else .error (.invalid ("missing field " ++ toString field.id))

/-- Type-checks assignments, completes them to a row when asked to, and bounds
the size of the result. -/
def normalize (schema : Schema) (fields : Fields) (whole : Bool) : Result Fields := do
  checkFields schema fields.toList
  let fields ← if whole then complete schema.fields fields else .ok fields
  if (encodeFields fields).length > maxRecord / 2 then .error (.invalid "row exceeds 8 MiB")
  else return fields

end Schema

namespace Table

/-- The latest schema. -/
def schema (table : Table) : Option Schema := table.schemas.getLast?

/-- The schema of one version. -/
def version (table : Table) (version : ℕ) : Result Schema :=
  match table.schemas.find? (fun s => s.version = version) with
  | some s => .ok s
  | none => corrupt "unknown schema version"

end Table

end EveDB
