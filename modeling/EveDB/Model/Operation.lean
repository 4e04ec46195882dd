import EveDB.Model.Fields
import EveDB.Model.TableCodec

/-!
# Operations and their log records

The operations a transaction records, and the payload of its log record: their number, and
behind it each operation behind a tag.

`Operation.encodedLen` is the formula by which an operation is charged when it is staged. It
agrees with the encoder (`length_encodeOp`), and a list of operations is read back from its
payload (`decodeOps_encodeOps`) when it is not empty and each of them holds what storage takes
back (`Operation.Storable`).
-/

namespace EveDB

/-- What a transaction records. Entities are named by their table and their identifier. -/
inductive Operation
  | table (definition : Table)
  | create (table id : ℕ) (fields : Fields)
  | apply (table id : ℕ) (fields : Fields)
  | delete (table id : ℕ)
  | retain (table id count : ℕ)
  | snapshot (table id : ℕ)

namespace Operation

/-- The number of bytes an operation is charged for. -/
def encodedLen : Operation → ℕ
  | .table t =>
    1 + 24 + t.name.utf8ByteSize +
      (t.schemas.map fun s => 16 + (s.fields.map fun f => 14 + f.name.utf8ByteSize).sum).sum
  | .create _ _ fields | .apply _ _ fields => 17 + fieldsEncodedLen fields
  | .retain .. => 25
  | .delete .. | .snapshot .. => 17

/-- The entity an operation is about. -/
def entityKey : Operation → Option (ℕ × ℕ)
  | .table _ => none
  | .create t id _ | .apply t id _ | .delete t id | .retain t id _ | .snapshot t id =>
    some (t, id)

end Operation

/-- The bytes of an operation. -/
def encodeOp : Operation → Bytes
  | .table t => Encoder.u8 0 ++ encodeTable t
  | .create t id fields =>
    Encoder.u8 1 ++ (Encoder.u64 t ++ (Encoder.u64 id ++ encodeFields fields))
  | .apply t id fields => Encoder.u8 2 ++ (Encoder.u64 t ++ (Encoder.u64 id ++ encodeFields fields))
  | .delete t id => Encoder.u8 3 ++ (Encoder.u64 t ++ Encoder.u64 id)
  | .retain t id n => Encoder.u8 4 ++ (Encoder.u64 t ++ (Encoder.u64 id ++ Encoder.u64 n))
  | .snapshot t id => Encoder.u8 5 ++ (Encoder.u64 t ++ Encoder.u64 id)

/-- The payload of a transaction. -/
def encodeOps (operations : List Operation) : Bytes := Encoder.list encodeOp operations

/-- Reads an operation. -/
def decodeOp : Decoder Operation := do
  match ← Decoder.u8 with
  | 0 => return .table (← decodeTable)
  | 1 => return .create (← Decoder.u64) (← Decoder.u64) (← decodeFields)
  | 2 => return .apply (← Decoder.u64) (← Decoder.u64) (← decodeFields)
  | 3 => return .delete (← Decoder.u64) (← Decoder.u64)
  | 4 => return .retain (← Decoder.u64) (← Decoder.u64) (← Decoder.u64)
  | 5 => return .snapshot (← Decoder.u64) (← Decoder.u64)
  | _ => Decoder.fail "unknown WAL operation"

/-- Reads the operations of a payload. -/
def decodeOperations : Decoder (List Operation) := do
  let n ← Decoder.count 1
  if n = 0 then Decoder.fail "empty WAL transaction"
  else Decoder.times (fun ops => do return ops ++ [← decodeOp]) n []

/-- Decodes the payload of a transaction. -/
def decodeOps (payload : Bytes) : Result (List Operation) := Decoder.decode decodeOperations payload

/-! ### The length formula -/

theorem length_encodeField (f : Field) : (encodeField f).length = 14 + f.name.utf8ByteSize := by
  simp only [encodeField, List.length_append, Encoder.length_u32, Encoder.length_string,
    Encoder.length_u8, Encoder.length_bool]
  omega

/-- A list takes its number and its items. -/
theorem Encoder.length_list {α : Type} (item : α → Bytes) (items : List α) :
    (Encoder.list item items).length = 8 + (items.map fun a => (item a).length).sum := by
  rw [Encoder.list, List.length_append, Encoder.length_u64, List.length_flatMap]

theorem length_encodeSchema (s : Schema) :
    (encodeSchema s).length = 16 + (s.fields.map fun f => 14 + f.name.utf8ByteSize).sum := by
  simp only [encodeSchema, List.length_append, Encoder.length_u64, Encoder.length_list,
    length_encodeField]
  omega

/-- **An operation takes as many bytes as it is charged for.** -/
theorem length_encodeOp (op : Operation) : (encodeOp op).length = op.encodedLen := by
  cases op with
  | table t =>
    simp only [encodeOp, encodeTable, Operation.encodedLen, List.length_append, Encoder.length_u8,
      Encoder.length_u64, Encoder.length_string, Encoder.length_list, length_encodeSchema]
    omega
  | create t id fields | apply t id fields =>
    simp only [encodeOp, Operation.encodedLen, List.length_append, Encoder.length_u8,
      Encoder.length_u64, length_encodeFields]
    omega
  | delete t id | retain t id n | snapshot t id =>
    simp [encodeOp, Operation.encodedLen]

/-- **A payload takes as many bytes as its transaction is charged for.** -/
theorem length_encodeOps (operations : List Operation) :
    (encodeOps operations).length = 8 + (operations.map Operation.encodedLen).sum := by
  simp only [encodeOps, Encoder.length_list, length_encodeOp]

/-! ### The round trip -/

/-- **An operation that storage takes back.** -/
def Operation.Storable : Operation → Prop
  | .table t => t.Valid
  | .create t id fields | .apply t id fields => t < 2 ^ 64 ∧ id < 2 ^ 64 ∧ fields.Storable
  | .delete t id | .snapshot t id => t < 2 ^ 64 ∧ id < 2 ^ 64
  | .retain t id n => t < 2 ^ 64 ∧ id < 2 ^ 64 ∧ n < 2 ^ 64

theorem Reads.op {op : Operation} (h : op.Storable) : Reads decodeOp (encodeOp op) op := by
  cases op with
  | table t => exact (u8 (v := 0) (by decide)).bind ((Table.reads h).bind_last (pure _))
  | create t id fs =>
    obtain ⟨ht, hid, hfs⟩ := h
    exact (u8 (v := 1) (by decide)).bind <| (u64 ht).bind <| (u64 hid).bind <|
      (fields hfs).bind_last (pure _)
  | apply t id fs =>
    obtain ⟨ht, hid, hfs⟩ := h
    exact (u8 (v := 2) (by decide)).bind <| (u64 ht).bind <| (u64 hid).bind <|
      (fields hfs).bind_last (pure _)
  | delete t id =>
    obtain ⟨ht, hid⟩ := h
    exact (u8 (v := 3) (by decide)).bind <| (u64 ht).bind <| (u64 hid).bind_last (pure _)
  | retain t id n =>
    obtain ⟨ht, hid, hn⟩ := h
    exact (u8 (v := 4) (by decide)).bind <| (u64 ht).bind <| (u64 hid).bind <|
      (u64 hn).bind_last (pure _)
  | snapshot t id =>
    obtain ⟨ht, hid⟩ := h
    exact (u8 (v := 5) (by decide)).bind <| (u64 ht).bind <| (u64 hid).bind_last (pure _)

/-- **A transaction is read back from its payload.** -/
theorem decodeOps_encodeOps {operations : List Operation} (hne : operations ≠ [])
    (hlen : operations.length < 2 ^ 64) (h : ∀ op ∈ operations, op.Storable) :
    decodeOps (encodeOps operations) = .ok operations := by
  have hitems : Reads
      (Decoder.times (fun ops => do return ops ++ [← decodeOp]) operations.length [])
      (operations.flatMap encodeOp) ([] ++ operations) :=
    Reads.times operations (fun done => done) [] fun before op after heq =>
      (Reads.op (h op (by simp [heq]))).bind_last (Reads.pure _)
  have hmin : ∀ op ∈ operations, max 1 1 ≤ (encodeOp op).length := by
    intro op _
    rw [length_encodeOp]
    cases op <;> simp [Operation.encodedLen] <;> omega
  refine Reads.decode (Reads.count_bind hlen hmin (Reads.ite_neg ?_ hitems))
  simpa using hne

end EveDB
