import EveDB.Store.Steps
import EveDB.Model.Evolution

/-!
# The batch of a transaction

What staging accepts can be stored: an operation that runs on a sound catalog is read back from
its record (`Staging.run_storable`). Since a transaction reserves for each operation the bytes
its record takes, the reservation of a batch is the length of its payload, and within valid
limits the payload fits a frame.
-/

namespace EveDB

open Std

/-! ### Values as their types allow them -/

/-- The length of a text or a byte string is a 64-bit number. -/
def Value.Typed : Value → Prop
  | .text v => v.utf8ByteSize < 2 ^ 64
  | .bytes v => v.length < 2 ^ 64
  | _ => True

instance (v : Value) : Decidable v.Typed :=
  match v with
  | .text v => inferInstanceAs (Decidable (v.utf8ByteSize < 2 ^ 64))
  | .bytes v => inferInstanceAs (Decidable (v.length < 2 ^ 64))
  | .null | .bool _ | .int64 _ | .uint64 _ | .float64 _ => inferInstanceAs (Decidable True)

/-- The identifiers of a row are 32-bit numbers. -/
def Fields.Typed (fields : Fields) : Prop := ∀ p ∈ fields.toList, p.1 < 2 ^ 32 ∧ p.2.Typed

instance (fields : Fields) : Decidable fields.Typed :=
  inferInstanceAs (Decidable (∀ p ∈ fields.toList, p.1 < 2 ^ 32 ∧ p.2.Typed))

/-- **An operation as its type allows it**: identifiers, counts and lengths within their
widths. -/
def Operation.Typed : Operation → Prop
  | .table t => t.id < 2 ^ 64 ∧ t.schemas.length < 2 ^ 64 ∧
      ∀ schema ∈ t.schemas, ∀ field ∈ schema.fields, field.id < 2 ^ 32
  | .create t id fields | .apply t id fields => t < 2 ^ 64 ∧ id < 2 ^ 64 ∧ fields.Typed
  | .delete t id | .snapshot t id => t < 2 ^ 64 ∧ id < 2 ^ 64
  | .retain t id n => t < 2 ^ 64 ∧ id < 2 ^ 64 ∧ n < 2 ^ 64

instance (operation : Operation) : Decidable operation.Typed :=
  match operation with
  | .table t => inferInstanceAs (Decidable (t.id < 2 ^ 64 ∧ t.schemas.length < 2 ^ 64 ∧
      ∀ schema ∈ t.schemas, ∀ field ∈ schema.fields, field.id < 2 ^ 32))
  | .create t id fields | .apply t id fields =>
    inferInstanceAs (Decidable (t < 2 ^ 64 ∧ id < 2 ^ 64 ∧ fields.Typed))
  | .delete t id | .snapshot t id => inferInstanceAs (Decidable (t < 2 ^ 64 ∧ id < 2 ^ 64))
  | .retain t id n => inferInstanceAs (Decidable (t < 2 ^ 64 ∧ id < 2 ^ 64 ∧ n < 2 ^ 64))

/-! ### What the checks accept can be stored -/

/-- The keys of a row come once. -/
theorem Fields.nodup_keys (fields : Fields) : (fields.toList.map Prod.fst).Nodup := by
  rw [List.Nodup, List.pairwise_map]
  refine ExtTreeMap.distinct_keys_toList.imp fun h heq => h ?_
  rw [heq]
  exact ReflOrd.compare_self

/-- **Assignments that a valid schema accepts can be stored**: each is of a field of its own, and
doubles are finite. -/
theorem Fields.storable {schema : Schema} {fields : Fields} (hvalid : schema.validate = .ok ())
    (hcheck : schema.checkFields fields.toList = .ok ()) (htyped : fields.Typed) :
    fields.Storable := by
  have haccepts := Schema.checkFields_eq_ok.mp hcheck
  constructor
  · have hsub : fields.toList.map Prod.fst ⊆ schema.fields.map Field.id := by
      intro id hid
      obtain ⟨p, hp, rfl⟩ := List.mem_map.mp hid
      obtain ⟨f, hfind, -⟩ := haccepts p hp
      have hid : f.id = p.1 := by simpa using List.find?_some hfind
      exact List.mem_map.mpr ⟨f, List.mem_of_find?_eq_some hfind, hid⟩
    have hle := (List.subperm_of_subset fields.nodup_keys hsub).length_le
    rw [List.length_map, List.length_map] at hle
    unfold Schema.validate at hvalid
    split at hvalid
    · cases hvalid
    · omega
  · exact fun p hp => (htyped p hp).1
  · intro p hp
    obtain ⟨f, -, hf⟩ := haccepts p hp
    have hv := (htyped p hp).2
    cases hvalue : p.2 with
    | null | bool v | int64 v | uint64 v => trivial
    | text v | bytes v =>
      rw [hvalue] at hv
      exact hv
    | float64 bits =>
      rw [hvalue, Field.accepts, Bool.and_eq_true] at hf
      exact hf.2

/-- The type check is the first part of `normalize`. -/
theorem Schema.checkFields_of_normalize {schema : Schema} {fields out : Fields} {whole : Bool}
    (h : schema.normalize fields whole = .ok out) : schema.checkFields fields.toList = .ok () := by
  obtain ⟨⟨⟩, hcheck, -⟩ := bind_eq_ok.mp h
  exact hcheck

/-- A definition a sound catalog takes can be stored. -/
theorem Catalog.Sound.valid {catalog catalog' : Catalog} {t : Table} (h : catalog.Sound)
    (hchange : catalog.change t = .ok catalog') (htyped : (Operation.table t).Typed) :
    t.Valid := by
  have hsound := h.change hchange
  obtain ⟨⟨⟩, -, heq⟩ := bind_eq_ok.mp hchange
  cases heq
  have hget : (catalog.insert t.id t)[t.id]? = some t := ExtTreeMap.getElem?_insert_self
  have hmem : t.id ∈ catalog.insert t.id t := ExtTreeMap.mem_insert_self
  obtain ⟨hid, hlen, hfields⟩ := htyped
  obtain ⟨hevolves, hname⟩ := hsound.evolves _ _ hget
  constructor
  · have := ((hsound.mem_iff t.id).mp hmem).1
    omega
  · exact hid
  · exact hname
  · exact hevolves.ne_nil
  · exact hlen
  · intro i hi
    have := congrArg (·[i]?) hevolves.versions
    simp only [List.getElem?_map, List.getElem?_eq_getElem hi, Option.map_some,
      List.getElem?_range' hi] at this
    have := Option.some.inj this
    omega
  · exact fun s hs => ⟨hevolves.valid s hs, hfields s hs⟩

namespace Store.Staging

variable (env : Env)

/-- The newest schema of a table of a sound catalog is valid. -/
theorem latest_valid {catalog : Catalog} (h : catalog.Sound) {id : ℕ} {t : Table} {schema : Schema}
    (htable : catalog.table id = .ok t) (hlatest : latest t = .ok schema) :
    schema.validate = .ok () := by
  have hget : catalog[id]? = some t := by
    unfold Catalog.table at htable
    split at htable
    · next t' ht' =>
      cases htable
      exact ht'
    · cases htable
  have hschema : t.schema = some schema := by
    unfold latest at hlatest
    split at hlatest
    · next s hs =>
      cases hlatest
      exact hs
    · cases hlatest
  exact (h.evolves id t hget).1.valid schema (List.mem_of_getLast? hschema)

/-- What a table lookup returns, and where. -/
theorem table_ok {id : ℕ} {t : Table} {s s' : Staging} (h : (table id).run s = (.ok t, s')) :
    s.catalog.table id = .ok t ∧ s' = s := by
  obtain ⟨_, _, hget, h⟩ := Fallible.run_bind_eq_ok.mp h
  cases hget
  exact ⟨(Prod.ext_iff.mp h).1, (Prod.ext_iff.mp h).2.symm⟩

/-- What is lifted into a step has succeeded when the step has. -/
theorem lift_ok {α : Type} {r : Result α} {a : α} {s s' : Staging}
    (h : (Fallible.lift r : Stage α).run s = (.ok a, s')) : r = .ok a ∧ s' = s :=
  ⟨(Prod.ext_iff.mp h).1, (Prod.ext_iff.mp h).2.symm⟩

/-- A row that is created has passed the type check. -/
theorem executeCreate_check {t : Table} {key : ℕ × ℕ} {fields : Fields} {s s' : Staging}
    (h : (executeCreate t key fields).run s = (.ok (), s')) :
    ∃ schema, latest t = .ok schema ∧ schema.checkFields fields.toList = .ok () := by
  obtain ⟨_, _, hget, h⟩ := Fallible.run_bind_eq_ok.mp h
  cases hget
  by_cases hmem : s.staged.contains key = true
  · rw [if_pos hmem] at h
    cases h
  · rw [if_neg hmem] at h
    obtain ⟨schema, _, hlatest, h⟩ := Fallible.run_bind_eq_ok.mp h
    obtain ⟨out, _, hnormalize, -⟩ := Fallible.run_bind_eq_ok.mp h
    exact ⟨schema, (lift_ok hlatest).1, Schema.checkFields_of_normalize (lift_ok hnormalize).1⟩

/-- So have assignments that are applied. -/
theorem executeApply_check {t : Table} {key : ℕ × ℕ} {fields : Fields} {s s' : Staging}
    (h : (executeApply t key fields).run s = (.ok (), s')) :
    ∃ schema, latest t = .ok schema ∧ schema.checkFields fields.toList = .ok () := by
  obtain ⟨data, _, -, h⟩ := Fallible.run_bind_eq_ok.mp h
  by_cases hempty : fields.isEmpty = true
  · rw [if_pos hempty] at h
    cases h
  · rw [if_neg hempty] at h
    obtain ⟨schema, _, hlatest, h⟩ := Fallible.run_bind_eq_ok.mp h
    obtain ⟨out, _, hnormalize, -⟩ := Fallible.run_bind_eq_ok.mp h
    exact ⟨schema, (lift_ok hlatest).1, Schema.checkFields_of_normalize (lift_ok hnormalize).1⟩

/-- **An operation that is executed can be stored**, and keeps the catalog sound. -/
theorem execute_storable {operation : Operation} {s s' : Staging} (hsound : s.catalog.Sound)
    (htyped : operation.Typed) (h : (execute env operation).run s = (.ok (), s')) :
    operation.Storable ∧ s'.catalog.Sound := by
  rcases execute_eq env operation with ⟨t, rfl⟩ | ⟨key, hkey, heq⟩
  · obtain ⟨_, _, hget, hrest⟩ := Fallible.run_bind_eq_ok.mp h
    cases hget
    obtain ⟨catalog, _, hlift, hmodify⟩ := Fallible.run_bind_eq_ok.mp hrest
    obtain ⟨hchange, rfl⟩ := lift_ok hlift
    cases hmodify
    exact ⟨hsound.valid hchange htyped, hsound.change hchange⟩
  · rw [heq] at h
    refine ⟨?_, by
      rw [((executeEntity_keeps env operation key).of_run h).catalog_eq]
      exact hsound⟩
    obtain ⟨t, s₁, htable, h⟩ := Fallible.run_bind_eq_ok.mp h
    obtain ⟨_, s₂, -, h⟩ := Fallible.run_bind_eq_ok.mp h
    obtain ⟨htable, -⟩ := table_ok htable
    cases operation with
    | table t => cases hkey
    | create t' id fields =>
      obtain ⟨schema, hlatest, hcheck⟩ := executeCreate_check h
      obtain ⟨ht, hid, hfields⟩ := htyped
      exact ⟨ht, hid, Fields.storable (latest_valid hsound htable hlatest) hcheck hfields⟩
    | apply t' id fields =>
      obtain ⟨schema, hlatest, hcheck⟩ := executeApply_check h
      obtain ⟨ht, hid, hfields⟩ := htyped
      exact ⟨ht, hid, Fields.storable (latest_valid hsound htable hlatest) hcheck hfields⟩
    | delete t' id | retain t' id n | snapshot t' id => exact htyped

/-- **An operation that runs** can be stored and is recorded, and its bytes are reserved. -/
theorem run_ok {operation : Operation} {s s' : Staging} (hsound : s.catalog.Sound)
    (htyped : operation.Typed) (h : (run env operation).run s = (.ok (), s')) :
    operation.Storable ∧ s'.catalog.Sound ∧ s'.operations = s.operations ++ [operation] ∧
      s'.reservation.bytes = s.reservation.bytes + operation.encodedLen ∧
      s'.permit = s.permit ∧ s'.options = s.options ∧
      (s.permit = true → s'.reservation.bytes ≤ s.options.limits.maxTransactionBytes) := by
  have hrecorded := run_operations env h
  obtain ⟨-, hr, -⟩ | ⟨-, hr, -⟩ | ⟨-, _, _, -, hr, -⟩ | ⟨-, -, t, hattempt, -, rfl⟩ :=
    run_cases env h
  · cases hr
  · cases hr
  · cases hr
  obtain ⟨_, s₁, hcharge, hexecute⟩ := Fallible.run_bind_eq_ok.mp hattempt
  obtain ⟨hlimit, s₂, hcharged, rfl⟩ := charge_ok env hcharge
  obtain ⟨-, hoptions, hpermit, hbytes, hcatalog, -, -, -⟩ := hcharged.spec
  obtain ⟨-, hoptions', hpermit', hbytes', -, -, -⟩ :=
    ((execute_keeps env operation).of_run hexecute).spec
  obtain ⟨hstorable, hsound'⟩ := execute_storable env (by
    rw [show (s₂.reserved operation.encodedLen).catalog = s₂.catalog from rfl, hcatalog]
    exact hsound) htyped hexecute
  have hreserved : t.reservation.bytes = s.reservation.bytes + operation.encodedLen := by
    rw [hbytes']
    exact congrArg (· + operation.encodedLen) hbytes
  exact ⟨hstorable, hsound', hrecorded, hreserved, hpermit'.trans hpermit,
    hoptions'.trans hoptions, fun hp => hreserved.symm ▸ hlimit hp⟩

/-- Runs operations one after another. -/
def runAll : List Operation → Stage Unit
  | [] => pure ()
  | operation :: operations => do
    run env operation
    runAll operations

/-- **What running a list of operations comes to**, when all of them run. -/
theorem runAll_ok {operations : List Operation} {s s' : Staging} (hsound : s.catalog.Sound)
    (htyped : ∀ op ∈ operations, op.Typed) (h : (runAll env operations).run s = (.ok (), s')) :
    (∀ op ∈ operations, op.Storable) ∧ s'.operations = s.operations ++ operations ∧
      s'.reservation.bytes = s.reservation.bytes + (operations.map Operation.encodedLen).sum ∧
      (s.permit = true → s.reservation.bytes ≤ s.options.limits.maxTransactionBytes →
        s'.reservation.bytes ≤ s.options.limits.maxTransactionBytes) := by
  induction operations generalizing s with
  | nil =>
    cases h
    exact ⟨by simp, by simp, by simp, fun _ h => h⟩
  | cons op ops ih =>
    obtain ⟨hop, hops⟩ := List.forall_mem_cons.mp htyped
    obtain ⟨_, s₁, hrun, h⟩ := Fallible.run_bind_eq_ok.mp h
    obtain ⟨hstorable, hsound', hrecorded, hreserved, hpermit, hoptions, hlimit⟩ :=
      run_ok env hsound hop hrun
    obtain ⟨hall, hrecorded', hreserved', hlimit'⟩ := ih hsound' hops h
    refine ⟨List.forall_mem_cons.mpr ⟨hstorable, hall⟩, ?_, ?_, ?_⟩
    · rw [hrecorded', hrecorded, List.append_assoc, List.singleton_append]
    · rw [hreserved', hreserved, List.map_cons, List.sum_cons, Nat.add_assoc]
    · intro hp _
      rw [hoptions] at hlimit'
      exact hlimit' (hpermit.trans hp) (hlimit hp)

/-- **A batch round-trips and is charged exactly.** Operations that a transaction on a reachable
catalog runs are recorded, and read back from the payload that is made of them. Each is charged
for the bytes of its record, so the reservation of the transaction is the length of the payload;
and if the limits are valid, the payload of a transaction that can be refused fits a frame. -/
theorem batch_round_trip {base : ReadState} {options : Options} {recovery : Bool} {tick : ℕ}
    {operations : List Operation} {s s' : Staging} (hcatalog : base.catalog.Reachable)
    (hnew : new env base options recovery tick = .ok s) (hne : operations ≠ [])
    (hlen : operations.length < 2 ^ 64) (htyped : ∀ op ∈ operations, op.Typed)
    (hrun : (runAll env operations).run s = (.ok (), s')) :
    s'.operations = operations ∧ decodeOps (encodeOps operations) = .ok operations ∧
      (∀ op ∈ operations, (encodeOp op).length = op.encodedLen) ∧
      s'.reservation.bytes = 8 + (operations.map Operation.encodedLen).sum ∧
      s'.reservation.bytes = (encodeOps operations).length ∧
      (recovery = false → options.limits.validate = .ok () →
        ∀ lsn, ∃ bytes, Frame.encode 2 lsn (encodeOps operations) = .ok bytes) := by
  obtain ⟨_, -, hs⟩ := bind_eq_ok.mp hnew
  cases hs
  obtain ⟨hstorable, hrecorded, hreserved, hlimit⟩ := runAll_ok env hcatalog.sound htyped hrun
  have hpayload := length_encodeOps operations
  refine ⟨hrecorded, decodeOps_encodeOps hne hlen hstorable, fun op _ => length_encodeOp op,
    hreserved, hreserved.trans hpayload.symm, fun hrecovery hvalid lsn => ?_⟩
  obtain ⟨hmin, hmax⟩ := Limits.transactionBytes_of_validate hvalid
  have hle := hlimit (by rw [hrecovery]; rfl) hmin
  rw [hreserved] at hle
  refine ⟨_, if_neg ?_⟩
  rw [hpayload]
  exact Nat.not_lt.mpr (hle.trans hmax)

/-- A view with one table and no entities. -/
def oneTableView : ReadState where
  root := { manifest := Root.empty, files := Files.empty }
  catalog := ((∅ : Catalog).insert 1 Catalog.oneTable : Catalog).insert 1 Catalog.twoTable
  overlay := ∅
  lsn := 0

/-- A new transaction on it. -/
def oneTableStaging : Staging where
  base := oneTableView
  options := Options.default
  permit := true
  reservation := ⟨8, 0⟩
  catalog := oneTableView.catalog
  staged := ∅
  operations := []
  failed := false
  ticks := 2

/-- An entity is created, changed and deleted. -/
def threeOperations : List Operation :=
  [.create 1 7 (ExtTreeMap.ofList [(1, .text "a")] compare),
   .apply 1 7 (ExtTreeMap.ofList [(2, .int64 5)] compare),
   .delete 1 7]

/-- Three operations run, and are read back from their payload. -/
theorem batch_round_trip_run : decodeOps (encodeOps threeOperations) = .ok threeOperations := by
  have htyped : ∀ op ∈ threeOperations, op.Typed := by
    simp only [threeOperations, List.forall_mem_cons]
    refine ⟨⟨by decide, by decide, ?_⟩, ⟨by decide, by decide, ?_⟩, ⟨by decide, by decide⟩, by simp⟩
    · intro p hp
      obtain rfl : p = (1, .text "a") := List.mem_singleton.mp hp
      exact ⟨by decide, show "a".utf8ByteSize < 2 ^ 64 by decide⟩
    · intro p hp
      obtain rfl : p = (2, .int64 5) := List.mem_singleton.mp hp
      exact ⟨by decide, trivial⟩
  have hrun : ((runAll (Env.quiet Limits.default false) threeOperations).run oneTableStaging).1 =
      .ok () := by decide +kernel
  have hnew : new (Env.quiet Limits.default false) oneTableView Options.default false 0 =
      .ok oneTableStaging := rfl
  obtain ⟨s', hs'⟩ := Fallible.exists_run_eq_ok hrun
  exact (batch_round_trip (Env.quiet Limits.default false) Catalog.reachable_twoTable hnew
    (by decide)
    (by decide) htyped hs').2.1

end Store.Staging

end EveDB
