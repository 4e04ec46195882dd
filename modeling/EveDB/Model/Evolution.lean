import EveDB.Model.Catalog
import Mathlib.Data.List.Nodup

/-!
# Compatible evolution

What the gate for table definitions guarantees over any number of changes. It compares a
schema with the one right before it; since the comparison is transitive on schemas whose
fields have identifiers of their own (`Schema.Extends.trans`), every schema of a table fits
every later one, and a row that was complete under one is completed under a later one by
nulls alone (`Schema.Extends.normalize`).
-/

namespace EveDB

/-! ### Schemas -/

namespace Schema

/-- A schema keeps the fields of another one, and adds nullable ones. -/
structure Extends (new old : Schema) : Prop where
  kept : ∀ f ∈ old.fields, ∃ g ∈ new.fields,
    g.id = f.id ∧ g.dataType = f.dataType ∧ g.nullable = f.nullable
  added : ∀ g ∈ new.fields, g.id ∉ old.fields.map Field.id → g.nullable = true

theorem validateFields_ids {ids : List ℕ} {names : List String} {fields : List Field}
    (h : validateFields ids names fields = .ok ()) :
    (fields.map Field.id).Nodup ∧ ∀ f ∈ fields, f.id ∉ ids := by
  induction fields generalizing ids names with
  | nil => simp
  | cons field fields ih =>
    rw [validateFields, bind_eq_ok] at h
    obtain ⟨⟨⟩, -, h⟩ := h
    split at h
    · cases h
    · next hfresh =>
      obtain ⟨-, hid, -⟩ := not_or.mp hfresh |>.imp id not_or.mp
      obtain ⟨hnodup, hnot⟩ := ih h
      refine ⟨List.nodup_cons.mpr ⟨fun hmem => ?_, hnodup⟩, ?_⟩
      · obtain ⟨f, hf, heq⟩ := List.mem_map.mp hmem
        exact hnot f hf (heq ▸ List.mem_cons_self)
      · intro f hf
        rcases List.mem_cons.mp hf with rfl | hf
        · exact hid
        · exact fun hmem => hnot f hf (List.mem_cons_of_mem _ hmem)

/-- The fields of a valid schema have identifiers of their own. -/
theorem nodup_ids {schema : Schema} (h : schema.validate = .ok ()) :
    (schema.fields.map Field.id).Nodup := by
  unfold validate at h
  split at h
  · cases h
  · exact (validateFields_ids h).1

/-- In a valid schema a field is found by its identifier. -/
theorem find?_eq {schema : Schema} (h : schema.validate = .ok ()) {f : Field}
    (hf : f ∈ schema.fields) : schema.fields.find? (fun g => g.id = f.id) = some f := by
  have hnodup := nodup_ids h
  cases hfind : schema.fields.find? fun g => g.id = f.id with
  | none => simpa using List.find?_eq_none.mp hfind f hf
  | some g =>
    have hid : g.id = f.id := by simpa using List.find?_some hfind
    exact congrArg some (List.inj_on_of_nodup_map hnodup (List.mem_of_find?_eq_some hfind) hf hid)

namespace Extends

variable {old mid new : Schema}

protected theorem refl (schema : Schema) : schema.Extends schema where
  kept f hf := ⟨f, hf, rfl, rfl, rfl⟩
  added _ hg hnot := absurd (List.mem_map_of_mem hg) hnot

/-- **The comparison is transitive**, as identifiers are unique. -/
protected theorem trans (hnew : new.validate = .ok ()) (h : new.Extends mid)
    (h' : mid.Extends old) : new.Extends old where
  kept f hf := by
    obtain ⟨g, hg, hid, htype, hnull⟩ := h'.kept f hf
    obtain ⟨k, hk, hid', htype', hnull'⟩ := h.kept g hg
    exact ⟨k, hk, hid'.trans hid, htype'.trans htype, hnull'.trans hnull⟩
  added g hg hnot := by
    by_cases hmid : g.id ∈ mid.fields.map Field.id
    · -- the field came with the schema in between, and was nullable there
      obtain ⟨f, hf, heq⟩ := List.mem_map.mp hmid
      have hnull := h'.added f hf (heq ▸ hnot)
      obtain ⟨k, hk, hid, -, hnull'⟩ := h.kept f hf
      obtain rfl := List.inj_on_of_nodup_map (nodup_ids hnew) hk hg (hid.trans heq)
      exact hnull'.trans hnull
    · exact h.added g hg hmid

end Extends


/-! ### Rows -/

/-- What the type check accepts. -/
theorem checkFields_eq_ok {schema : Schema} {entries : List (ℕ × Value)} :
    schema.checkFields entries = .ok () ↔ ∀ entry ∈ entries, ∃ f,
      schema.fields.find? (fun g => g.id = entry.1) = some f ∧ f.accepts entry.2 = true := by
  induction entries with
  | nil => simp [checkFields]
  | cons entry entries ih =>
    obtain ⟨id, value⟩ := entry
    rw [checkFields, List.forall_mem_cons]
    cases schema.fields.find? fun g => g.id = id with
    | none => simp
    | some f =>
      by_cases hf : f.accepts value = true
      · simp [hf, ih]
      · simp [hf]

/-- A completed row has what it had, and nulls. -/
def Completes (row out : Fields) : Prop :=
  (∀ (id : ℕ) v, row[id]? = some v → out[id]? = some v) ∧
    ∀ (id : ℕ) v, out[id]? = some v → row[id]? = some v ∨ v = Value.null

theorem Completes.refl (row : Fields) : Completes row row :=
  ⟨fun _ _ h => h, fun _ _ h => Or.inl h⟩

theorem Completes.trans {row mid out : Fields} (h : Completes row mid) (h' : Completes mid out) :
    Completes row out := by
  refine ⟨fun id v hv => h'.1 id v (h.1 id v hv), fun id v hv => ?_⟩
  rcases h'.2 id v hv with hv | hnull
  · exact h.2 id v hv
  · exact Or.inr hnull

/-- A null in a new place completes a row. -/
theorem Completes.insert_null {row : Fields} {id : ℕ} (hid : id ∉ row) :
    Completes row (row.insert id .null) := by
  refine ⟨fun i v hv => ?_, fun i v hv => ?_⟩
  · rw [Std.ExtTreeMap.getElem?_insert, if_neg, hv]
    intro heq
    obtain rfl := Std.LawfulEqOrd.eq_of_compare heq
    exact hid (Std.ExtTreeMap.mem_iff_isSome_getElem?.mpr (by simp [hv]))
  · rw [Std.ExtTreeMap.getElem?_insert] at hv
    split at hv
    · exact Or.inr (Option.some.inj hv).symm
    · exact Or.inl hv

/-- Completing a row succeeds when the fields it does not have are nullable. -/
theorem complete_ok {fields : List Field} {row : Fields}
    (hnull : ∀ f ∈ fields, f.id ∉ row → f.nullable = true) :
    ∃ out, complete fields row = .ok out ∧ Completes row out := by
  induction fields generalizing row with
  | nil => exact ⟨row, rfl, .refl row⟩
  | cons f fields ih =>
    obtain ⟨hf, hnull⟩ := List.forall_mem_cons.mp hnull
    rw [complete]
    by_cases hmem : f.id ∈ row
    · rw [if_pos (Std.ExtTreeMap.mem_iff_contains.mp hmem)]
      exact ih hnull
    · rw [if_neg fun h => hmem (Std.ExtTreeMap.mem_iff_contains.mpr h), if_pos (hf hmem)]
      obtain ⟨out, hout, hcompletes⟩ := @ih (row.insert f.id .null) fun g hg hg' =>
        hnull g hg fun h => hg' (Std.ExtTreeMap.mem_insert.mpr (Or.inr h))
      exact ⟨out, hout, (Completes.insert_null hmem).trans hcompletes⟩

/-- A completed row has all fields. -/
theorem mem_of_complete {fields : List Field} {row out : Fields}
    (h : complete fields row = .ok out) :
    (∀ f ∈ fields, f.id ∈ out) ∧ ∀ id ∈ row, id ∈ out := by
  induction fields generalizing row with
  | nil =>
    cases h
    exact ⟨by simp, fun _ h => h⟩
  | cons f fields ih =>
    rw [complete] at h
    split_ifs at h with hmem hnull
    · obtain ⟨hfields, hrow⟩ := ih h
      exact ⟨List.forall_mem_cons.mpr
        ⟨hrow _ (Std.ExtTreeMap.mem_iff_contains.mpr hmem), hfields⟩, hrow⟩
    · obtain ⟨hfields, hrow⟩ := ih h
      exact ⟨List.forall_mem_cons.mpr
        ⟨hrow _ (Std.ExtTreeMap.mem_insert.mpr (Or.inl Std.ReflOrd.compare_self)), hfields⟩,
        fun id hid => hrow id (Std.ExtTreeMap.mem_insert.mpr (Or.inr hid))⟩

/-- A complete row: what `normalize` makes of assignments, and leaves as it is. -/
def IsRow (schema : Schema) (row : Fields) : Prop := schema.normalize row true = .ok row

/-- What a complete row is. -/
theorem IsRow.spec {schema : Schema} {row : Fields} (h : schema.IsRow row) :
    (∀ entry ∈ row.toList, ∃ f, schema.fields.find? (fun g => g.id = entry.1) = some f ∧
      f.accepts entry.2 = true) ∧ ∀ f ∈ schema.fields, f.id ∈ row := by
  unfold IsRow normalize at h
  obtain ⟨⟨⟩, hcheck, h⟩ := bind_eq_ok.mp h
  obtain ⟨out, hout, h⟩ := bind_eq_ok.mp h
  dsimp only at h
  split_ifs at h
  cases h
  exact ⟨checkFields_eq_ok.mp hcheck, (mem_of_complete hout).1⟩

/-- **A row is completed under a later schema by nulls**, unless it gets too long. -/
theorem Extends.normalize {old new : Schema} (hnew : new.validate = .ok ())
    (h : new.Extends old) {row : Fields} (hrow : old.IsRow row) :
    ∃ out, Completes row out ∧ new.normalize row true =
      if (encodeFields out).length > maxRecord / 2 then .error (.invalid "row exceeds 8 MiB")
      else .ok out := by
  obtain ⟨haccepts, hall⟩ := hrow.spec
  have hcheck : new.checkFields row.toList = .ok () := by
    refine checkFields_eq_ok.mpr fun entry hentry => ?_
    obtain ⟨f, hfind, hf⟩ := haccepts entry hentry
    have hid : f.id = entry.1 := by simpa using List.find?_some hfind
    obtain ⟨g, hg, hgid, htype, hnull⟩ := h.kept f (List.mem_of_find?_eq_some hfind)
    refine ⟨g, ?_, ?_⟩
    · rw [← hid, ← hgid]
      exact find?_eq hnew hg
    · cases hvalue : entry.2 <;> simpa [Field.accepts, hvalue, htype, hnull] using hf
  have hnull : ∀ g ∈ new.fields, g.id ∉ row → g.nullable = true := fun g hg hnot =>
    h.added g hg fun hmem => by
      obtain ⟨f, hf, heq⟩ := List.mem_map.mp hmem
      exact hnot (heq ▸ hall f hf)
  obtain ⟨out, hout, hcompletes⟩ := complete_ok hnull
  refine ⟨out, hcompletes, ?_⟩
  simp only [Schema.normalize, hcheck, hout, ok_bind, if_true, pure_eq_ok]

end Schema

/-! ### Tables -/

/-- **The schema history of a table**: schemas numbered from one, each of which fits every
later one. -/
structure Table.Evolves (table : Table) : Prop where
  ne_nil : table.schemas ≠ []
  versions : table.schemas.map Schema.version = List.range' 1 table.schemas.length
  valid : ∀ schema ∈ table.schemas, schema.validate = .ok ()
  extends_of_lt : table.schemas.Pairwise fun old new => new.Extends old

/-- The latest schema has the last version. -/
theorem Table.Evolves.version_of_getLast? {table : Table} (h : table.Evolves) {schema : Schema}
    (hlast : table.schemas.getLast? = some schema) : schema.version = table.schemas.length := by
  have hget := congrArg List.getLast? h.versions
  rw [List.getLast?_map, hlast, List.getLast?_range', if_neg (by simpa using h.ne_nil)] at hget
  have hpos := List.length_pos_iff.mpr h.ne_nil
  have := Option.some.inj hget
  omega

/-- A table with a name and its first schema. -/
theorem Table.Evolves.single {table : Table} {schema : Schema} (hschemas : table.schemas = [schema])
    (hversion : schema.version = 1) (hvalid : schema.validate = .ok ()) : table.Evolves where
  ne_nil := by simp [hschemas]
  versions := by simp [hschemas, hversion]
  valid s hs := by
    rw [hschemas, List.mem_singleton] at hs
    rw [hs, hvalid]
  extends_of_lt := by simp [hschemas]

/-- **One more schema**, compared with the one before it, fits all earlier ones. -/
theorem Table.Evolves.append {old table : Table} (h : old.Evolves) {previous latest : Schema}
    (hprevious : old.schemas.getLast? = some previous)
    (hschemas : table.schemas = old.schemas ++ [latest])
    (hversion : latest.version = previous.version + 1) (hvalid : latest.validate = .ok ())
    (hextends : latest.Extends previous) : table.Evolves where
  ne_nil := by simp [hschemas]
  versions := by
    rw [hschemas, List.map_append, List.length_append, List.length_singleton, List.map_singleton,
      h.versions, hversion, h.version_of_getLast? hprevious, List.range'_1_concat,
      Nat.add_comm 1]
  valid s hs := by
    rw [hschemas, List.mem_append, List.mem_singleton] at hs
    rcases hs with hs | rfl
    · exact h.valid s hs
    · exact hvalid
  extends_of_lt := by
    rw [hschemas, List.pairwise_append]
    refine ⟨h.extends_of_lt, List.pairwise_singleton _ _, fun s hs s' hs' => ?_⟩
    obtain rfl := List.mem_singleton.mp hs'
    obtain ⟨front, hfront⟩ := List.getLast?_eq_some_iff.mp hprevious
    have hpairwise := h.extends_of_lt
    rw [hfront, List.mem_append, List.mem_singleton] at hs
    rcases hs with hs | rfl
    · rw [hfront, List.pairwise_append] at hpairwise
      exact hextends.trans hvalid (hpairwise.2.2 s hs previous (List.mem_singleton.mpr rfl))
    · exact hextends

/-! ### Catalogs -/

namespace Catalog

/-- What the comparison of two schemas accepts. -/
theorem extends_of_checkEvolution {old latest : Schema}
    (h : checkEvolution old latest = .ok ()) : latest.Extends old := by
  unfold checkEvolution at h
  split_ifs at h with hkept hadded
  constructor
  · intro f hf
    by_contra hnone
    refine hkept (List.any_eq_true.mpr ⟨f, hf, ?_⟩)
    refine decide_eq_true fun hany => hnone ?_
    obtain ⟨g, hg, hmatch⟩ := List.any_eq_true.mp hany
    exact ⟨g, hg, of_decide_eq_true hmatch⟩
  · intro g hg hnew
    by_contra hnull
    refine hadded (List.any_eq_true.mpr ⟨g, hg, decide_eq_true ⟨fun hany => hnew ?_, hnull⟩⟩)
    obtain ⟨f, hf, hid⟩ := List.any_eq_true.mp hany
    exact List.mem_map.mpr ⟨f, hf, of_decide_eq_true hid⟩

/-- How an accepted definition relates to the catalog. -/
inductive Change (catalog : Catalog) (table : Table) : Prop
  /-- A new table, under the next identifier. -/
  | created (schema : Schema) (hnone : catalog[table.id]? = none)
      (hid : table.id = catalog.lastId + 1) (hschemas : table.schemas = [schema])
      (hversion : schema.version = 1)
  /-- A new name, or nothing new. -/
  | renamed (old : Table) (hold : catalog[table.id]? = some old)
      (hschemas : table.schemas = old.schemas)
  /-- One more schema. -/
  | altered (old : Table) (previous latest : Schema) (hold : catalog[table.id]? = some old)
      (hprevious : old.schemas.getLast? = some previous)
      (hschemas : table.schemas = old.schemas ++ [latest])
      (hversion : latest.version = previous.version + 1) (hextends : latest.Extends previous)

/-- **What the gate accepts.** -/
theorem validateTableChange_spec {catalog : Catalog} {table : Table}
    (h : catalog.validateTableChange table = .ok ()) :
    validateName table.name = .ok () ∧
      (∀ (id : ℕ) old, catalog[id]? = some old → old.id ≠ table.id → old.name ≠ table.name) ∧
      (∀ schema ∈ table.schemas, schema.validate = .ok ()) ∧ catalog.Change table := by
  unfold validateTableChange at h
  obtain ⟨⟨⟩, hname, h⟩ := bind_eq_ok.mp h
  split_ifs at h with hunique
  have hnames : ∀ (id : ℕ) old, catalog[id]? = some old → old.id ≠ table.id →
      old.name ≠ table.name := fun id old hget hid heq =>
    hunique (List.any_eq_true.mpr ⟨(id, old),
      Std.ExtTreeMap.mem_toList_iff_getElem?_eq_some.mpr hget, decide_eq_true ⟨hid, heq⟩⟩)
  cases hschema : table.schema with
  | none =>
    rw [hschema] at h
    cases h
  | some latest =>
    simp only [hschema] at h
    obtain ⟨⟨⟩, hvalid, h⟩ := bind_eq_ok.mp h
    refine ⟨hname, hnames, ?_, ?_⟩
    · exact forM_eq_ok hvalid
    · cases hold : catalog[table.id]? with
      | none =>
        simp only [hold] at h
        split_ifs at h with hnew
        obtain ⟨hid, hlength, hversion⟩ : table.id = catalog.lastId + 1 ∧
            table.schemas.length = 1 ∧ latest.version = 1 := by
          simpa only [not_or, not_not] using hnew
        obtain ⟨schema, hschemas⟩ := List.length_eq_one_iff.mp hlength
        rw [Table.schema, hschemas] at hschema
        cases hschema
        exact .created schema hold hid hschemas hversion
      | some old =>
        simp only [hold] at h
        split_ifs at h with hsame
        · exact .renamed old hold hsame
        · cases hprevious : old.schema with
          | none =>
            rw [hprevious] at h
            cases h
          | some previous =>
            simp only [hprevious] at h
            split_ifs at h with hfits
            obtain ⟨hlength, hprefix, hversion⟩ : table.schemas.length = old.schemas.length + 1 ∧
                old.schemas.isPrefixOf table.schemas = true ∧
                latest.version = previous.version + 1 := by
              simpa only [not_or, not_not] using hfits
            obtain ⟨behind, hbehind⟩ := List.isPrefixOf_iff_prefix.mp hprefix
            have hone : behind.length = 1 := by
              rw [← hbehind, List.length_append] at hlength
              omega
            obtain ⟨schema, rfl⟩ := List.length_eq_one_iff.mp hone
            rw [Table.schema, ← hbehind, List.getLast?_append] at hschema
            cases hschema
            exact .altered old previous schema hold hprevious hbehind.symm hversion
              (extends_of_checkEvolution h)

/-- **A catalog as the engine keeps it.** -/
structure Sound (catalog : Catalog) : Prop where
  key : ∀ (id : ℕ) table, catalog[id]? = some table → table.id = id
  ids : ∃ k, ∀ id, id ∈ catalog ↔ 1 ≤ id ∧ id ≤ k
  names : ∀ (i j : ℕ) t u, catalog[i]? = some t → catalog[j]? = some u → t.name = u.name → i = j
  evolves : ∀ (id : ℕ) table, catalog[id]? = some table →
    table.Evolves ∧ validateName table.name = .ok ()

/-- The identifiers in use are those up to the largest one. -/
theorem Sound.mem_iff {catalog : Catalog} (h : catalog.Sound) (id : ℕ) :
    id ∈ catalog ↔ 1 ≤ id ∧ id ≤ catalog.lastId := by
  obtain ⟨k, hk⟩ := h.ids
  have hlast : catalog.lastId = k := by
    unfold lastId
    cases hmax : catalog.maxKey? with
    | none =>
      rw [Std.ExtTreeMap.maxKey?_eq_none_iff] at hmax
      have hnot : ¬ (1 ≤ k ∧ k ≤ k) := fun hmem => by
        have := (hk k).mpr hmem
        rw [hmax] at this
        exact Std.ExtTreeMap.not_mem_empty this
      simp only [Option.getD_none]
      omega
    | some m =>
      obtain ⟨hm, hle⟩ := Std.ExtTreeMap.maxKey?_eq_some_iff_mem_and_forall.mp hmax
      have hbounds := (hk m).mp hm
      have hkm := hle k ((hk k).mpr ⟨hbounds.1.trans hbounds.2, le_rfl⟩)
      rw [Option.getD_some]
      exact le_antisymm hbounds.2 (Nat.isLE_compare.mp hkm)
  rw [hlast, hk]

/-- **An accepted change keeps the catalog sound.** -/
theorem Sound.change {catalog catalog' : Catalog} {table : Table} (h : catalog.Sound)
    (hchange : catalog.change table = .ok catalog') : catalog'.Sound := by
  obtain ⟨⟨⟩, hvalidate, heq⟩ := bind_eq_ok.mp hchange
  cases heq
  obtain ⟨hname, hnames, hvalid, hchange⟩ := validateTableChange_spec hvalidate
  have hget (id : ℕ) : (catalog.insert table.id table)[id]? =
      if table.id = id then some table else catalog[id]? := by
    rw [Std.ExtTreeMap.getElem?_insert]
    simp only [Std.LawfulEqOrd.compare_eq_iff_eq]
  have hmem (id : ℕ) : id ∈ catalog.insert table.id table ↔ id = table.id ∨ id ∈ catalog := by
    rw [Std.ExtTreeMap.mem_insert, Std.LawfulEqOrd.compare_eq_iff_eq, eq_comm]
  constructor
  · intro id t ht
    rw [hget] at ht
    split_ifs at ht with hid
    · cases ht
      exact hid
    · exact h.key id t ht
  · refine ⟨max catalog.lastId table.id, fun id => ?_⟩
    rw [hmem, h.mem_iff]
    cases hchange with
    | created schema hnone hid => omega
    | renamed old hold | altered old previous latest hold =>
      have := (h.mem_iff table.id).mp (Std.ExtTreeMap.mem_iff_isSome_getElem?.mpr (by simp [hold]))
      omega
  · have hother {id : ℕ} {t : Table} (ht : catalog[id]? = some t) (hid : table.id ≠ id) :
        t.name ≠ table.name := hnames id t ht fun heq => hid (heq ▸ h.key id t ht)
    intro i j t u ht hu heq
    rw [hget] at ht hu
    split_ifs at ht hu with hi hj hj
    · exact hi.symm.trans hj
    · cases ht
      exact absurd heq.symm (hother hu hj)
    · cases hu
      exact absurd heq (hother ht hi)
    · exact h.names i j t u ht hu heq
  · intro id t ht
    rw [hget] at ht
    split_ifs at ht with hid
    · cases ht
      refine ⟨?_, hname⟩
      cases hchange with
      | created schema _ _ hschemas hversion =>
        exact .single hschemas hversion (hvalid schema (by simp [hschemas]))
      | renamed old hold hschemas =>
        obtain ⟨hne, hversions, hvalid', hextends⟩ := (h.evolves _ old hold).1
        exact ⟨hschemas ▸ hne, hschemas ▸ hversions, hvalid, hschemas ▸ hextends⟩
      | altered old previous latest hold hprevious hschemas hversion hextends =>
        exact (h.evolves _ old hold).1.append hprevious hschemas hversion
          (hvalid latest (by simp [hschemas])) hextends
    · exact h.evolves id t ht

/-- No table is sound. -/
theorem Sound.empty : Sound ∅ where
  key id t ht := by simp at ht
  ids := ⟨0, fun id => by simp; omega⟩
  names i j t u ht := by simp at ht
  evolves id t ht := by simp at ht

/-- **Every catalog that changes lead to is sound.** -/
theorem Reachable.sound {catalog : Catalog} (h : Reachable catalog) : catalog.Sound := by
  induction h with
  | empty => exact .empty
  | change _ hchange ih => exact ih.change hchange

/-- **The catalog only evolves compatibly.** In every catalog that accepted changes lead to,
tables are numbered from one and have names of their own; the schemas of a table are numbered
from one, each keeps the fields of the earlier ones and adds nullable ones; and a row that is
complete under one of them is completed by nulls under every later one, unless it gets too
long. -/
theorem Reachable.evolves_compatibly {catalog : Catalog} (h : Reachable catalog) :
    (∃ k, ∀ id, id ∈ catalog ↔ 1 ≤ id ∧ id ≤ k) ∧
    (∀ (i j : ℕ) t u, catalog[i]? = some t → catalog[j]? = some u → t.name = u.name → i = j) ∧
    ∀ (id : ℕ) table, catalog[id]? = some table → table.id = id ∧
      table.schemas.map Schema.version = List.range' 1 table.schemas.length ∧
      ∀ i j (hi : i ≤ j) (hj : j < table.schemas.length),
        table.schemas[j].Extends table.schemas[i] ∧
        ∀ row : Fields, table.schemas[i].IsRow row →
          ∃ out, Schema.Completes row out ∧ table.schemas[j].normalize row true =
            if (encodeFields out).length > maxRecord / 2 then
              .error (.invalid "row exceeds 8 MiB")
            else .ok out := by
  have hsound := h.sound
  refine ⟨hsound.ids, hsound.names, fun id table hget => ⟨hsound.key id table hget, ?_⟩⟩
  have htable := (hsound.evolves id table hget).1
  refine ⟨htable.versions, fun i j hi hj => ?_⟩
  have hextends : table.schemas[j].Extends table.schemas[i] := by
    rcases hi.eq_or_lt with rfl | hlt
    · exact .refl _
    · exact List.pairwise_iff_getElem.mp htable.extends_of_lt i j _ hj hlt
  exact ⟨hextends, fun row hrow => hextends.normalize (htable.valid _ (List.getElem_mem hj)) hrow⟩

/-- A table with one text field. -/
def oneTable : Table where
  id := 1
  name := "items"
  schemas := [⟨1, [⟨1, "name", .text, false⟩]⟩]

/-- The table with one more field. -/
def twoTable : Table :=
  { oneTable with
    schemas := oneTable.schemas ++ [⟨2, [⟨1, "name", .text, false⟩, ⟨2, "score", .int64, true⟩]⟩] }

/-- The first table of a catalog. -/
theorem change_oneTable : change ∅ oneTable = .ok ((∅ : Catalog).insert 1 oneTable) := by
  have hname : validateName oneTable.name = .ok () := by decide
  have hschemas : oneTable.schemas.forM Schema.validate = .ok () := by decide
  have hlast : lastId ∅ = 0 := by simp [lastId]
  simp [change, validateTableChange, hname, hschemas, hlast, Table.schema]
  simp [oneTable]

/-- A table is created and gets a second field. -/
theorem reachable_twoTable :
    Reachable (((∅ : Catalog).insert 1 oneTable : Catalog).insert 1 twoTable) := by
  have halter : change ((∅ : Catalog).insert 1 oneTable) twoTable =
      .ok (((∅ : Catalog).insert 1 oneTable : Catalog).insert 1 twoTable) := rfl
  exact (Reachable.empty.change change_oneTable).change halter

/-- A row of the first schema is completed by a null under the second one. -/
theorem Reachable.evolves_compatibly_run : ∃ out, Schema.Completes
    (Std.ExtTreeMap.ofList [(1, .text "a")] compare) out ∧
      (Schema.mk 2 [⟨1, "name", .text, false⟩, ⟨2, "score", .int64, true⟩]).normalize
        (Std.ExtTreeMap.ofList [(1, .text "a")] compare) true =
          if (encodeFields out).length > maxRecord / 2 then .error (.invalid "row exceeds 8 MiB")
          else .ok out := by
  have hget : (((∅ : Catalog).insert 1 oneTable : Catalog).insert 1 twoTable)[1]? =
      some twoTable := rfl
  have hrow : (Schema.mk 1 [⟨1, "name", .text, false⟩]).IsRow
      (Std.ExtTreeMap.ofList [(1, .text "a")] compare) := rfl
  obtain ⟨-, -, hall⟩ := reachable_twoTable.evolves_compatibly
  exact ((hall 1 twoTable hget).2.2 0 1 (Nat.zero_le _) (by decide)).2 _ hrow

end Catalog

end EveDB
