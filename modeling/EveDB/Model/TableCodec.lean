import EveDB.Model.Schema

/-!
# Stored table definitions

How a table definition is written into a manifest and checked when it is read
back. The decoder validates every schema and the sequence of their versions, so a
definition that reads back has passed the engine's own checks; conversely every
definition that passes them is read back (`Table.reads`).
-/

namespace EveDB

/-- The byte of a data type. -/
def DataType.tag : DataType → ℕ
  | .bool => 0
  | .int64 => 1
  | .uint64 => 2
  | .float64 => 3
  | .text => 4
  | .bytes => 5

/-- The bytes of a field definition. -/
def encodeField (field : Field) : Bytes :=
  Encoder.u32 field.id ++ (Encoder.string field.name ++
    (Encoder.u8 field.dataType.tag ++ Encoder.bool field.nullable))

/-- The bytes of a schema. -/
def encodeSchema (schema : Schema) : Bytes :=
  Encoder.u64 schema.version ++ Encoder.list encodeField schema.fields

/-- The bytes of a table definition. -/
def encodeTable (table : Table) : Bytes :=
  Encoder.u64 table.id ++ (Encoder.string table.name ++ Encoder.list encodeSchema table.schemas)

/-- Reads a data type. -/
def decodeDataType : Decoder DataType := do
  match ← Decoder.u8 with
  | 0 => return .bool
  | 1 => return .int64
  | 2 => return .uint64
  | 3 => return .float64
  | 4 => return .text
  | 5 => return .bytes
  | _ => Decoder.fail "invalid field type"

/-- Reads a field definition. -/
def decodeField : Decoder Field := do
  let id ← Decoder.u32
  let name ← Decoder.string
  let dataType ← decodeDataType
  let nullable ← Decoder.bool "invalid nullability"
  return { id, name, dataType, nullable }

/-- Turns the error of a check into damage. -/
def Decoder.check (result : Result Unit) : Decoder Unit := fun data =>
  match result with
  | .ok () => .ok ((), data)
  | .error e => corrupt e.display

/-- Reads the next schema of a table. -/
def decodeSchema (schemas : List Schema) : Decoder (List Schema) := do
  let version ← Decoder.u64
  let fields ← Decoder.counted 14 (fun fields => do return fields ++ [← decodeField]) []
  let schema : Schema := { version, fields }
  Decoder.check schema.validate
  if version ≠ schemas.length + 1 then Decoder.fail "nonsequential schema versions"
  else return schemas ++ [schema]

/-- Reads a table definition. -/
def decodeTable : Decoder Table := do
  let id ← Decoder.u64
  let name ← Decoder.string
  let schemas ← Decoder.counted 16 decodeSchema []
  if id = 0 ∨ schemas = [] then Decoder.fail "invalid table"
  else do
    Decoder.check (validateName name)
    return { id, name, schemas }

/-! ### What the engine's checks accept -/

/-- A schema as the engine keeps it. -/
structure Schema.Valid (schema : Schema) : Prop where
  validate_eq : schema.validate = .ok ()
  id_lt : ∀ field ∈ schema.fields, field.id < 2 ^ 32

/-- **A table definition as the engine keeps it**: a validated name and validated
schemas numbered from one. -/
structure Table.Valid (table : Table) : Prop where
  id_ne_zero : table.id ≠ 0
  id_lt : table.id < 2 ^ 64
  name_eq : validateName table.name = .ok ()
  schemas_ne_nil : table.schemas ≠ []
  length_lt : table.schemas.length < 2 ^ 64
  version_eq : ∀ i (h : i < table.schemas.length), table.schemas[i].version = i + 1
  schema_valid : ∀ schema ∈ table.schemas, schema.Valid

theorem validateName_eq_ok {name : String} (h : validateName name = .ok ()) :
    0 < name.utf8ByteSize ∧ name.utf8ByteSize ≤ 255 := by
  unfold validateName at h
  split at h
  · cases h
  · next hc =>
    refine ⟨Nat.pos_of_ne_zero fun h0 => hc (Or.inl ?_), by omega⟩
    rw [String.utf8ByteSize_eq_zero_iff.mp h0]
    rfl

theorem Schema.validateFields_name {ids : List ℕ} {names : List String} {fields : List Field}
    (h : Schema.validateFields ids names fields = .ok ()) :
    ∀ field ∈ fields, validateName field.name = .ok () := by
  induction fields generalizing ids names with
  | nil => simp
  | cons field fields ih =>
    rw [Schema.validateFields, bind_eq_ok] at h
    obtain ⟨⟨⟩, hname, h⟩ := h
    split at h
    · cases h
    · intro f hf
      rcases List.mem_cons.mp hf with rfl | hf
      · exact hname
      · exact ih h f hf

theorem Schema.Valid.name_eq {schema : Schema} (h : schema.Valid) :
    ∀ field ∈ schema.fields, validateName field.name = .ok () := by
  have := h.validate_eq
  unfold Schema.validate at this
  split at this
  · cases this
  · exact Schema.validateFields_name this

theorem Schema.Valid.length_fields {schema : Schema} (h : schema.Valid) :
    0 < schema.fields.length ∧ schema.fields.length ≤ 4096 := by
  have := h.validate_eq
  unfold Schema.validate at this
  split at this
  · cases this
  · next hc =>
    have : schema.fields ≠ [] := fun h => hc (Or.inr (Or.inl h))
    exact ⟨List.length_pos_iff.mpr this, by omega⟩

/-! ### The round trip -/

namespace Reads

theorem check {result : Result Unit} (h : result = .ok ()) :
    Reads (Decoder.check result) [] () := by
  subst h
  exact fun _ => rfl

theorem dataType (t : DataType) : Reads decodeDataType (Encoder.u8 t.tag) t := by
  have h : Reads Decoder.u8 (Encoder.u8 t.tag) t.tag := u8 (by cases t <;> decide)
  exact h.bind_last (by cases t <;> exact pure _)

theorem field {f : Field} (hid : f.id < 2 ^ 32) (hname : validateName f.name = .ok ()) :
    Reads decodeField (encodeField f) f := by
  have hsize := validateName_eq_ok hname
  exact (u32 hid).bind <| (string (by omega)).bind <| (dataType f.dataType).bind <|
    (bool _ f.nullable).bind_last <| pure f

theorem schema {s : Schema} (hs : s.Valid) {done : List Schema}
    (hversion : s.version = done.length + 1) (hlt : s.version < 2 ^ 64) :
    Reads (decodeSchema done) (encodeSchema s) (done ++ [s]) := by
  obtain ⟨hpos, hlen⟩ := hs.length_fields
  refine (u64 hlt).bind ?_
  refine bind_last (a := s.fields) ?_ ?_
  · refine counted _ _ _ s.fields id (by omega) (fun f _ => ?_) fun before f after heq => ?_
    · simp [encodeField]
      omega
    · have hf : f ∈ s.fields := by simp [heq]
      exact (field (hs.id_lt f hf) (hs.name_eq f hf)).bind_last (pure _)
  · refine (check hs.validate_eq).bind_last ?_
    exact ite_neg (not_not.mpr hversion) (pure _)

end Reads

/-- **A valid table definition is read back from its bytes.** -/
theorem Table.reads {table : Table} (h : table.Valid) :
    Reads decodeTable (encodeTable table) table := by
  obtain ⟨hpos, hsize⟩ := validateName_eq_ok h.name_eq
  refine (Reads.u64 h.id_lt).bind ((Reads.string (by omega)).bind ?_)
  refine Reads.bind_last (a := table.schemas) ?_ ?_
  · refine Reads.counted _ _ _ table.schemas (fun done => done) h.length_lt (fun s _ => ?_)
      fun before s after heq => ?_
    · simp [encodeSchema, Encoder.list]
      omega
    · have hs : s ∈ table.schemas := by simp [heq]
      have hget := h.version_eq before.length (by simp [heq])
      have hversion : s.version = before.length + 1 := by simpa [heq] using hget
      have hlt : before.length + 1 ≤ table.schemas.length := by simp [heq]
      exact Reads.schema (h.schema_valid s hs) hversion (by have := h.length_lt; omega)
  · refine Reads.ite_neg (not_or.mpr ⟨h.id_ne_zero, h.schemas_ne_nil⟩) ?_
    exact (Reads.check h.name_eq).bind_last (Reads.pure table)

/-- A stored table definition takes at least 25 bytes. -/
theorem Table.Valid.le_length_encode {table : Table} (h : table.Valid) :
    25 ≤ (encodeTable table).length := by
  have := (validateName_eq_ok h.name_eq).1
  simp [encodeTable, Encoder.list]
  omega

end EveDB
