import EveDB.Store.Batches
import Mathlib.Algebra.BigOperators.Group.List.Lemmas
import Mathlib.Tactic.Ring

/-!
# Sizes of rows

How the memory a row is charged for changes when the row does. Each field costs its allowance
and the bytes its value holds; a row that is completed grows by one allowance for each field it
lacked (`fieldsBytes_complete`). What `mergedSizes` computes is the size of the merged row
(`mergedSizes_fst`), before it is completed.

A stored state costs in memory what is read off its bytes (`recordBytes_encodeEntity`).
-/

namespace EveDB

open Std

/-- The field costs this much. -/
def fieldBytes (p : ℕ × Value) : ℕ := fieldAllowance + valueBytes p.2

theorem fieldsBytes_eq (fields : Fields) :
    fieldsBytes fields = (fields.toList.map fieldBytes).sum := rfl

/-- A field of its own adds what it costs. -/
theorem fieldsBytes_insert {fields : Fields} {id : ℕ} (hid : id ∉ fields) (value : Value) :
    fieldsBytes (fields.insert id value) = fieldBytes (id, value) + fieldsBytes fields := by
  rw [fieldsBytes_eq, ((SortedMap.toList_insert_perm hid value).map fieldBytes).sum_eq]
  rfl

/-- How many of the fields of a schema a row lacks. -/
def missing (fields : List Field) (row : Fields) : ℕ :=
  (fields.filter fun field => ¬ row.contains field.id).length

theorem missing_insert_le (fields : List Field) (row : Fields) (id : ℕ) (value : Value) :
    missing fields (row.insert id value) ≤ missing fields row := by
  refine List.Sublist.length_le (List.monotone_filter_right _ fun field hfield => ?_)
  refine decide_eq_true fun hc => of_decide_eq_true hfield ?_
  exact ExtTreeMap.mem_iff_contains.mp
    (ExtTreeMap.mem_insert.mpr (Or.inr (ExtTreeMap.mem_iff_contains.mpr hc)))

/-- **Completing a row** adds at most an allowance for each field it lacks. -/
theorem fieldsBytes_complete {fields : List Field} {row out : Fields}
    (h : Schema.complete fields row = .ok out) :
    fieldsBytes out ≤ fieldsBytes row + fieldAllowance * missing fields row := by
  induction fields generalizing row with
  | nil =>
    cases h
    exact Nat.le_add_right _ _
  | cons field fields ih =>
    rw [Schema.complete] at h
    split at h
    · next hmem =>
      have heq : missing (field :: fields) row = missing fields row :=
        congrArg List.length (List.filter_cons_of_neg (by simpa using hmem))
      rw [heq]
      exact ih h
    · next hmem =>
      split at h
      · have hnew : field.id ∉ row := fun hc => hmem (ExtTreeMap.mem_iff_contains.mp hc)
        have hle := ih h
        have hmissing := missing_insert_le fields row field.id .null
        have heq : missing (field :: fields) row = missing fields row + 1 := by
          rw [missing, List.filter_cons_of_pos (by simpa using hmem), List.length_cons, missing]
        rw [fieldsBytes_insert hnew] at hle
        rw [heq]
        have hnull : fieldBytes (field.id, .null) = fieldAllowance := rfl
        rw [hnull] at hle
        have := Nat.mul_le_mul_left fieldAllowance hmissing
        rw [Nat.mul_add]
        omega
      · cases h

/-- **The merged row is charged what the size check counts.** -/
theorem mergedSizes_fst (current changes : Fields) :
    (mergedSizes current changes).1 =
      entitySize + fieldsBytes (current.insertMany changes.toList) := by
  rw [fieldsBytes_eq, ((SortedMap.toList_insertMany_perm current changes).map fieldBytes).sum_eq,
    mergedSizes]
  simp only [List.map_append, List.map_map]
  rfl

/-- Nothing laid over a row leaves it alone. -/
theorem insertMany_empty (row : Fields) : row.insertMany (∅ : Fields).toList = row := by
  rw [SortedMap.toList_empty, ExtTreeMap.insertMany_nil]

/-! ### Stored records -/

namespace Reads

/-- Reading over a value finds what it holds outside its field. -/
theorem skipValue {v : Value} (h : v.Typed) :
    Reads EveDB.skipValue (encodeValue v) (valueBytes v) := by
  cases v with
  | null => exact (u8 (v := 0) (by decide)).bind_last (pure _)
  | bool v =>
    have hv : v.toNat < 2 ^ 8 := by cases v <;> decide
    exact (u8 (v := 1) (by decide)).bind ((u8 hv).bind_last (pure _))
  | int64 v => exact (u8 (v := 2) (by decide)).bind ((u64 v.toUInt64.toNat_lt).bind_last (pure _))
  | uint64 v => exact (u8 (v := 3) (by decide)).bind ((u64 v.toNat_lt).bind_last (pure _))
  | float64 bits => exact (u8 (v := 4) (by decide)).bind ((u64 bits.toNat_lt).bind_last (pure _))
  | text v =>
    have hlen : v.toUTF8.data.toList.length = v.utf8ByteSize := by
      rw [Array.length_toList, ByteArray.size_data]
      rfl
    refine (u8 (v := 5) (by decide)).bind ((bytes (hlen.trans_lt h)).bind_last ?_)
    rw [hlen]
    exact pure _
  | bytes v => exact (u8 (v := 6) (by decide)).bind ((bytes h).bind_last (pure _))

/-- A size that stays within 64 bits grows. -/
theorem growSize {a b : ℕ} (h : a + b ≤ maxU64) : Reads (EveDB.growSize a b) [] (a + b) := by
  rw [EveDB.growSize, checkedAdd_eq_some.mpr ⟨rfl, h⟩]
  exact pure _

end Reads

/-- What values hold outside their fields. -/
def valuesBytes (entries : List (ℕ × Value)) : ℕ := (entries.map fun p => valueBytes p.2).sum

theorem fieldsBytes_eq_add (fields : Fields) :
    fieldsBytes fields = fields.toList.length * fieldAllowance + valuesBytes fields.toList := by
  rw [fieldsBytes_eq, valuesBytes]
  induction fields.toList with
  | nil => rfl
  | cons p entries ih =>
    rw [List.map_cons, List.sum_cons, ih, List.map_cons, List.sum_cons, List.length_cons,
      fieldBytes]
    ring

/-- **What a stored record costs is read off its bytes.** -/
theorem recordBytes_eq {a b c tag overhead : ℕ} {fields : Fields} (ha : a < 2 ^ 64)
    (hb : b < 2 ^ 64) (hc : c < 2 ^ 64) (htag : tag < 2 ^ 8) (htyped : fields.Typed)
    (hsize : overhead + fieldsBytes fields ≤ maxU64) :
    recordBytes (Encoder.u64 a ++ (Encoder.u64 b ++ (Encoder.u64 c ++ (Encoder.u8 tag ++
      encodeFields fields)))) overhead = .ok (overhead + fieldsBytes fields) := by
  have hmax : maxU64 < 2 ^ 64 := by decide
  rw [fieldsBytes_eq_add] at hsize ⊢
  have hmin : ∀ p ∈ fields.toList, max 5 1 ≤ (encodeAssignment p).length := by
    intro p _
    rw [length_encodeAssignment]
    exact Nat.le_add_right 5 _
  have hbody (before : List (ℕ × Value)) (p : ℕ × Value) (after : List (ℕ × Value))
      (heq : fields.toList = before ++ p :: after) :
      Reads (skipAssignment (overhead + fields.toList.length * fieldAllowance +
          valuesBytes ([] ++ before))) (encodeAssignment p)
        (overhead + fields.toList.length * fieldAllowance + valuesBytes ([] ++ before ++ [p])) := by
    have hp : p ∈ fields.toList := by rw [heq]; simp
    have hvalues : valuesBytes fields.toList =
        valuesBytes before + (valueBytes p.2 + valuesBytes after) := by
      rw [heq]
      simp [valuesBytes]
    have hgrow := Reads.growSize (a := overhead + fields.toList.length * fieldAllowance +
      valuesBytes before) (b := valueBytes p.2) (by omega)
    have hadd : valuesBytes ([] ++ before ++ [p]) = valuesBytes before + valueBytes p.2 := by
      simp [valuesBytes]
    rw [hadd, List.nil_append, ← Nat.add_assoc]
    exact (Reads.u32 (htyped p hp).1).bind ((Reads.skipValue (htyped p hp).2).bind_last hgrow)
  have htimes := Reads.times fields.toList (fun before => overhead + fields.toList.length *
    fieldAllowance + valuesBytes before) [] hbody
  have hzero : overhead + fields.toList.length * fieldAllowance + valuesBytes [] =
      overhead + fields.toList.length * fieldAllowance := rfl
  rw [List.nil_append, hzero, Nat.add_assoc] at htimes
  have hlen : fields.toList.length < 2 ^ 64 := by
    have : fields.toList.length ≤ fields.toList.length * fieldAllowance :=
      Nat.le_mul_of_pos_right _ (by decide)
    omega
  refine Reads.decode ((Reads.u64 ha).bind ((Reads.u64 hb).bind ((Reads.u64 hc).bind
    ((Reads.u8 htag).bind (Reads.count_bind hlen hmin ?_)))))
  have hstart := Reads.growSize (a := overhead) (b := fields.toList.length * fieldAllowance)
    (by omega)
  exact hstart.bind htimes

/-- A state as its type allows it. -/
def Entity.Typed (e : Entity) : Prop :=
  e.id < 2 ^ 64 ∧ e.version < 2 ^ 64 ∧ e.schemaVersion < 2 ^ 64 ∧ e.fields.Typed

/-- An event as its type allows it. -/
def Event.Typed (e : Event) : Prop :=
  e.version < 2 ^ 64 ∧ e.transaction < 2 ^ 64 ∧ e.schemaVersion < 2 ^ 64 ∧ e.fields.Typed

/-- **A stored state costs what it is charged for.** -/
theorem recordBytes_encodeEntity {e : Entity} (h : e.Typed) (hsize : entityBytes e ≤ maxU64) :
    recordBytes (encodeEntity e) entitySize = .ok (entityBytes e) := by
  obtain ⟨hid, hversion, hschema, hfields⟩ := h
  exact recordBytes_eq hid hversion hschema (by cases e.deleted <;> decide) hfields hsize

/-- **A stored event costs what it is charged for.** -/
theorem recordBytes_encodeEvent {e : Event} (h : e.Typed) (hsize : eventBytes e ≤ maxU64) :
    recordBytes (encodeEvent e) eventSize = .ok (eventBytes e) := by
  obtain ⟨hversion, htransaction, hschema, hfields⟩ := h
  exact recordBytes_eq hversion htransaction hschema (by cases e.kind <;> decide) hfields hsize

end EveDB
