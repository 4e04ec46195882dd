import EveDB.Store.Batches
import EveDB.Store.Lengths

/-!
# What is decoded is as its type allows

Whatever the bytes were, what a decoder returns has identifiers, counts and lengths within their
widths (`Decoder.Yields`): rows can be stored again (`yields_fields`), and operations are typed
(`decodeOps_typed`). Nothing of this is checked anywhere: it comes of the widths in which numbers
are read.
-/

namespace EveDB

open Std

namespace Decoder

variable {α β σ : Type}

/-- **Whatever a decoder returns** is so. -/
def Yields (d : Decoder α) (P : α → Prop) : Prop := ∀ data, d.Leaves data fun a _ => P a

namespace Yields

variable {d : Decoder α} {P Q : α → Prop} {R : β → Prop}

theorem bind {f : α → Decoder β} (h : d.Yields P) (hf : ∀ a, P a → (f a).Yields R) :
    (d >>= f).Yields R :=
  fun data => (h data).bind fun a rest ha => hf a ha rest

theorem pure {a : α} (h : P a) : Yields (Pure.pure a) P := fun _ => .pure h

theorem fail (message : String) : (Decoder.fail message : Decoder α).Yields P :=
    fun _ => .fail message

theorem mono (h : d.Yields P) (hPQ : ∀ a, P a → Q a) : d.Yields Q :=
  fun data a rest hrun => hPQ a (h data a rest hrun)

theorem any : d.Yields fun _ => True := fun _ _ _ _ => trivial

/-- What every round of a loop adds. -/
theorem times {body : σ → Decoder σ} {R : ℕ → σ → Prop}
    (hbody : ∀ k s, R k s → (body s).Yields (R (k + 1))) (n : ℕ) {k : ℕ} {s : σ} (h : R k s) :
    (Decoder.times body n s).Yields (R (k + n)) := by
  induction n generalizing k s with
  | zero => exact pure h
  | succ n ih =>
    refine (hbody k s h).bind fun t ht => ?_
    rw [show k + (n + 1) = k + 1 + n by omega]
    exact ih ht

/-- Items that are read one after another. -/
theorem list (h : d.Yields P) (n : ℕ) :
    (Decoder.times (fun items => do return items ++ [← d]) n []).Yields
      fun items : List α => ∀ a ∈ items, P a := by
  refine times (R := fun _ (items : List α) => ∀ a ∈ items, P a) (k := 0)
    (fun k items hitems => ?_) n
    (List.forall_mem_nil _)
  refine h.bind fun a ha => .pure fun other hother => ?_
  rcases List.mem_append.mp hother with hother | hother
  · exact hitems other hother
  · rwa [List.mem_singleton.mp hother]

/-- A number is within its width. -/
theorem number (n : ℕ) : Yields (LittleEndian.decode <$> take n) (· < 2 ^ (8 * n)) := by
  intro data a rest hrun
  rw [StateT.run_map] at hrun
  obtain ⟨⟨taken, left⟩, htake, heq⟩ := map_eq_ok.mp hrun
  obtain rfl : LittleEndian.decode taken = a := congrArg Prod.fst heq
  have hlt := LittleEndian.decode_lt taken
  rw [(run_take htake).1] at hlt
  rw [pow_mul]
  exact hlt

theorem u32 : Decoder.u32.Yields (· < 2 ^ 32) := number 4

theorem u64 : Decoder.u64.Yields (· < 2 ^ 64) := number 8

theorem count (m : ℕ) : (Decoder.count m).Yields (· < 2 ^ 64) := by
  refine u64.bind fun n hn data a rest hrun => ?_
  rw [StateT.run_bind] at hrun
  obtain ⟨⟨_, _⟩, hremaining, hguard⟩ := bind_eq_ok.mp hrun
  cases hremaining
  dsimp only at hguard
  split at hguard
  · cases hguard
  · cases hguard
    exact hn

theorem bytes : Decoder.bytes.Yields (·.length < 2 ^ 64) := by
  refine (count 1).bind fun n hn data a rest hrun => ?_
  change a.length < 2 ^ 64
  rw [(run_take hrun).1]
  exact hn

theorem string : Decoder.string.Yields (·.utf8ByteSize < 2 ^ 64) := by
  refine bytes.bind fun bytes hbytes => ?_
  split
  · next s hs =>
    refine pure ?_
    rw [utf8ByteSize_of_fromUTF8? hs]
    exact hbytes
  · exact fail _

/-- So is what a whole record is decoded to. -/
theorem decode (h : d.Yields P) {data : Bytes} {a : α} (ha : Decoder.decode d data = .ok a) : P a :=
  (h data).decode ha

end Yields

end Decoder

open Decoder

/-! ### Rows -/

/-- **A value that is decoded** can be stored. -/
theorem yields_value : decodeValue.Yields Value.Storable := by
  refine (Yields.number 1).bind fun tag _ => ?_
  rcases tag with _ | _ | _ | _ | _ | _ | _ | tag
  · exact .pure trivial
  · exact Yields.any.bind fun b _ => .pure trivial
  · exact Yields.u64.bind fun n _ => .pure trivial
  · exact Yields.u64.bind fun n _ => .pure trivial
  · refine Yields.u64.bind fun n _ => ?_
    dsimp only
    split
    · next hfinite => exact .pure hfinite
    · exact .fail _
  · exact Yields.string.bind fun s hs => .pure hs
  · exact Yields.bytes.bind fun bytes hbytes => .pure hbytes
  · exact .fail _

/-- **A row that is decoded** can be stored. -/
theorem yields_fields : decodeFields.Yields Fields.Storable := by
  refine (Yields.count 5).bind fun n _ => ?_
  split
  · exact .fail _
  · next hfew =>
    have hrow : (Decoder.times decodeAssignment n ∅).Yields fun fields : Fields =>
        fields.toList.length = 0 + n ∧ ∀ p ∈ fields.toList, p.1 < 2 ^ 32 ∧ p.2.Storable := by
      refine .times (R := fun k (fields : Fields) => fields.toList.length = k ∧
        ∀ p ∈ fields.toList, p.1 < 2 ^ 32 ∧ p.2.Storable) (fun k fields hfields => ?_) n ?_
      · obtain ⟨hlength, hall⟩ := hfields
        refine Yields.u32.bind fun id hid => yields_value.bind fun value hvalue => ?_
        split
        · exact .fail _
        · next hnew =>
          have hperm := SortedMap.toList_insert_perm
            (fun hc => hnew (ExtTreeMap.mem_iff_contains.mp hc)) value
          refine .pure ⟨?_, fun p hp => ?_⟩
          · rw [hperm.length_eq, List.length_cons, hlength]
          · rcases List.mem_cons.mp (hperm.mem_iff.mp hp) with rfl | hp
            · exact ⟨hid, hvalue⟩
            · exact hall p hp
      · exact ⟨rfl, List.forall_mem_nil _⟩
    refine hrow.mono fun fields hfields => ?_
    obtain ⟨hlength, hall⟩ := hfields
    exact ⟨by omega, fun p hp => (hall p hp).1, fun p hp => (hall p hp).2⟩

/-! ### Operations -/

/-- A row that can be stored is typed. -/
theorem Fields.Storable.typed {fields : Fields} (h : fields.Storable) : fields.Typed := by
  intro p hp
  have hvalue := h.value p hp
  refine ⟨h.id_lt p hp, ?_⟩
  cases hp2 : p.2 with
  | text v | bytes v =>
    rw [hp2] at hvalue
    exact hvalue
  | null | bool v | int64 v | uint64 v | float64 bits => trivial

/-- The fields of a schema that is decoded. -/
theorem yields_schemaFields :
    (Decoder.counted 14 (fun fields => do return fields ++ [← decodeField])
    []).Yields fun fields : List Field => ∀ field ∈ fields, field.id < 2 ^ 32 := by
  have hfield : decodeField.Yields fun field => field.id < 2 ^ 32 :=
    Yields.u32.bind fun id hid => Yields.any.bind fun _ _ => Yields.any.bind fun _ _ =>
      Yields.any.bind fun _ _ => .pure hid
  exact (Yields.count 14).bind fun n _ => hfield.list n

/-- **A definition that is decoded** is typed. -/
theorem yields_table : decodeTable.Yields fun t => (Operation.table t).Typed := by
  refine Yields.u64.bind fun id hid => Yields.any.bind fun name _ => ?_
  have hschemas : (Decoder.counted 16 decodeSchema []).Yields fun schemas =>
      schemas.length < 2 ^ 64 ∧ ∀ schema ∈ schemas, ∀ field ∈ schema.fields, field.id < 2 ^ 32 := by
    refine (Yields.count 16).bind fun n hn => ?_
    refine (Yields.times (R := fun k (schemas : List Schema) => schemas.length = k ∧
      ∀ schema ∈ schemas, ∀ field ∈ schema.fields, field.id < 2 ^ 32) (k := 0)
      (fun k schemas hschemas => ?_) n ⟨rfl, List.forall_mem_nil _⟩).mono
        fun schemas hschemas => ⟨by omega, hschemas.2⟩
    obtain ⟨hlength, hall⟩ := hschemas
    refine Yields.any.bind fun version _ => yields_schemaFields.bind fun fields hfields =>
      Yields.any.bind fun _ _ => ?_
    split
    · exact .fail _
    · refine .pure ⟨?_, fun schema hschema => ?_⟩
      · rw [List.length_append, hlength, List.length_singleton]
      · rcases List.mem_append.mp hschema with hschema | hschema
        · exact hall schema hschema
        · rw [List.mem_singleton.mp hschema]
          exact hfields
  refine hschemas.bind fun schemas hschemas => ?_
  split
  · exact .fail _
  · exact Yields.any.bind fun _ _ => .pure ⟨hid, hschemas⟩

/-- **An operation that is decoded** is typed. -/
theorem yields_op : decodeOp.Yields Operation.Typed := by
  refine Yields.any.bind fun tag _ => ?_
  rcases tag with _ | _ | _ | _ | _ | _ | tag
  · exact yields_table.bind fun t ht => .pure ht
  · exact Yields.u64.bind fun t ht => Yields.u64.bind fun id hid =>
      yields_fields.bind fun fields hfields => .pure ⟨ht, hid, hfields.typed⟩
  · exact Yields.u64.bind fun t ht => Yields.u64.bind fun id hid =>
      yields_fields.bind fun fields hfields => .pure ⟨ht, hid, hfields.typed⟩
  · exact Yields.u64.bind fun t ht => Yields.u64.bind fun id hid => .pure ⟨ht, hid⟩
  · exact Yields.u64.bind fun t ht => Yields.u64.bind fun id hid => Yields.u64.bind fun n hn =>
      .pure ⟨ht, hid, hn⟩
  · exact Yields.u64.bind fun t ht => Yields.u64.bind fun id hid => .pure ⟨ht, hid⟩
  · exact .fail _

/-- **The operations of a payload** are typed. -/
theorem decodeOps_typed {payload : Bytes} {operations : List Operation}
    (h : decodeOps payload = .ok operations) : ∀ op ∈ operations, op.Typed := by
  have hops : decodeOperations.Yields fun operations => ∀ op ∈ operations, op.Typed := by
    refine (Yields.count 1).bind fun n _ => ?_
    split
    · exact .fail _
    · exact yields_op.list n
  exact hops.decode h

/-! ### States -/

/-- **A state as storage takes it back**: that of this entity, with numbers within their widths. -/
structure Entity.State (id : ℕ) (e : Entity) : Prop where
  id_eq : e.id = id
  id_lt : id < 2 ^ 64
  version_lt : e.version < 2 ^ 64
  schemaVersion_lt : e.schemaVersion < 2 ^ 64
  storable : e.fields.Storable

/-- **A state that is decoded.** -/
theorem decodeEntity_state {data : Bytes} {e : Entity} (h : decodeEntity data = .ok e) :
    e.State e.id :=
  Yields.decode (P := fun e => e.State e.id) (Yields.u64.bind fun _ hid =>
    Yields.u64.bind fun _ hversion => Yields.u64.bind fun _ hschemaVersion =>
      Yields.any.bind fun _ _ => yields_fields.bind fun _ hfields =>
        .pure ⟨rfl, hid, hversion, hschemaVersion, hfields⟩) h

/-- **A state is read back** from its record. -/
theorem Entity.State.decode_encode {id : ℕ} {e : Entity} (h : e.State id) :
    decodeEntity (encodeEntity e) = .ok e :=
  Reads.entity ⟨h.id_eq.symm ▸ h.id_lt, h.version_lt, h.schemaVersion_lt, h.storable.typed⟩
    h.storable

end EveDB
