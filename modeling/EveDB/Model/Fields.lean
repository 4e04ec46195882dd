import EveDB.Model.Schema

/-!
# Stored rows

How the assignments of a row are written and read back, and the length formula the engine
charges for them before it writes them.

A row reads back (`Reads.fields`) when it has no more fields than a schema can declare, its
identifiers fit their width and its values are ones storage takes (`Fields.Storable`): the
decoder turns down a double that is not finite. The formula agrees with the encoder on every
row (`length_encodeFields`).
-/

namespace EveDB

/-- Reads a value. -/
def decodeValue : Decoder Value := do
  match ← Decoder.u8 with
  | 0 => return .null
  | 1 => return .bool (← Decoder.bool "invalid boolean")
  | 2 => return .int64 (UInt64.ofNat (← Decoder.u64)).toInt64
  | 3 => return .uint64 (UInt64.ofNat (← Decoder.u64))
  | 4 => do
    let bits := UInt64.ofNat (← Decoder.u64)
    if isFinite bits then return .float64 bits else Decoder.fail "non-finite float"
  | 5 => return .text (← Decoder.string)
  | 6 => return .bytes (← Decoder.bytes)
  | _ => Decoder.fail "unknown value type"

/-- Reads the next assignment of a row. -/
def decodeAssignment (fields : Fields) : Decoder Fields := do
  let id ← Decoder.u32
  let value ← decodeValue
  if fields.contains id then Decoder.fail "duplicate field" else return fields.insert id value

/-- Reads a row. -/
def decodeFields : Decoder Fields := do
  let n ← Decoder.count 5
  if 4096 < n then Decoder.fail "too many fields" else Decoder.times decodeAssignment n ∅

/-- The bytes of an assignment. -/
def encodeAssignment : ℕ × Value → Bytes :=
  fun (id, value) => Encoder.u32 id ++ encodeValue value

/-- The number of bytes behind the type of a value. -/
def valueEncodedLen : Value → ℕ
  | .null => 0
  | .bool _ => 1
  | .text text => 8 + text.utf8ByteSize
  | .bytes bytes => 8 + bytes.length
  | _ => 8

/-- The number of bytes a row is charged for. -/
def fieldsEncodedLen (fields : Fields) : ℕ :=
  8 + (fields.toList.map fun (_, value) => 5 + valueEncodedLen value).sum

/-! ### The length formula -/

/-- A value takes one byte more than the formula counts behind its type. -/
theorem length_encodeValue (value : Value) :
    (encodeValue value).length = 1 + valueEncodedLen value := by
  cases value <;> simp [encodeValue, valueEncodedLen]

theorem length_encodeAssignment (p : ℕ × Value) :
    (encodeAssignment p).length = 5 + valueEncodedLen p.2 := by
  rw [encodeAssignment, List.length_append, Encoder.length_u32, length_encodeValue]
  omega

/-- **A row takes as many bytes as it is charged for.** -/
theorem length_encodeFields (fields : Fields) :
    (encodeFields fields).length = fieldsEncodedLen fields := by
  have hmap : fields.toList.map (fun p => (encodeAssignment p).length) =
      fields.toList.map fun p => 5 + valueEncodedLen p.2 :=
    List.map_congr_left fun p _ => length_encodeAssignment p
  rw [fieldsEncodedLen, ← hmap]
  exact (List.length_append).trans (by rw [Encoder.length_u64, List.length_flatMap]; rfl)

/-! ### The round trip -/

/-- The value is one that storage takes back. -/
def Value.Storable : Value → Prop
  | .float64 bits => isFinite bits = true
  | .text v => v.utf8ByteSize < 2 ^ 64
  | .bytes v => v.length < 2 ^ 64
  | _ => True

/-- **A row that storage takes back.** -/
structure Fields.Storable (fields : Fields) : Prop where
  length_le : fields.toList.length ≤ 4096
  id_lt : ∀ p ∈ fields.toList, p.1 < 2 ^ 32
  value : ∀ p ∈ fields.toList, p.2.Storable

namespace Reads

theorem value {v : Value} (h : v.Storable) : Reads decodeValue (encodeValue v) v := by
  cases v with
  | null => exact (u8 (v := 0) (by decide)).bind_last (pure _)
  | bool v => exact (u8 (v := 1) (by decide)).bind ((bool _ v).bind_last (pure _))
  | int64 v =>
    refine (u8 (v := 2) (by decide)).bind ((u64 v.toUInt64.toNat_lt).bind_last ?_)
    rw [UInt64.ofNat_toNat, Int64.toInt64_toUInt64]
    exact pure _
  | uint64 v =>
    refine (u8 (v := 3) (by decide)).bind ((u64 v.toNat_lt).bind_last ?_)
    rw [UInt64.ofNat_toNat]
    exact pure _
  | float64 bits =>
    refine (u8 (v := 4) (by decide)).bind ((u64 bits.toNat_lt).bind_last ?_)
    rw [UInt64.ofNat_toNat, if_pos (show isFinite bits = true from h)]
    exact pure _
  | text v => exact (u8 (v := 5) (by decide)).bind ((string h).bind_last (pure _))
  | bytes v => exact (u8 (v := 6) (by decide)).bind ((bytes h).bind_last (pure _))

/-- An assignment of a field that has none yet is read into the row. -/
theorem assignment {p : ℕ × Value} {fields : Fields} (hid : p.1 < 2 ^ 32) (hv : p.2.Storable)
    (hnew : p.1 ∉ fields) :
    Reads (decodeAssignment fields) (encodeAssignment p) (fields.insert p.1 p.2) := by
  refine (u32 hid).bind ((value hv).bind_last ?_)
  exact ite_neg (by simpa using hnew) (pure _)

/-- **A row is read back from its bytes.** -/
theorem fields {fs : Fields} (h : fs.Storable) : Reads decodeFields (encodeFields fs) fs := by
  have hmin : ∀ p ∈ fs.toList, max 5 1 ≤ (encodeAssignment p).length := by
    intro p _
    rw [length_encodeAssignment]
    exact Nat.le_add_right 5 _
  -- the entries read so far are the row made of them, and the next key is not among them
  have hbody (before : List (ℕ × Value)) (p : ℕ × Value) (after : List (ℕ × Value))
      (heq : fs.toList = before ++ p :: after) :
      Reads (decodeAssignment (Std.ExtTreeMap.ofList ([] ++ before) compare)) (encodeAssignment p)
        (Std.ExtTreeMap.ofList ([] ++ before ++ [p]) compare) := by
    have hp : p ∈ fs.toList := by rw [heq]; simp
    rw [List.nil_append, SortedMap.ofList_append_singleton]
    exact assignment (h.id_lt p hp) (h.value p hp) (SortedMap.not_mem_ofList_of_toList heq)
  have hitems := times fs.toList (fun before => Std.ExtTreeMap.ofList before compare) [] hbody
  rw [List.nil_append, SortedMap.ofList_toList] at hitems
  have hlen := h.length_le
  exact count_bind (by omega) hmin (ite_neg (by omega) hitems)

end Reads

end EveDB
