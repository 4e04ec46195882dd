import EveDB.Store.Bound
import EveDB.Store.Decoded

/-!
# The states in memory

Every state of an entity that is in memory is one that storage takes back (`Entity.State`): rows
that are created or changed have gone through the schema of a table, and everything else has been
decoded. So it is with the current state of an entity, its base and its snapshots
(`EntityData.Formed`), and with all that is reconstructed of them (`EntityData.at_state`). Every
operation keeps it, as long as the tables it defines are as their types allow (`Staging.Grows`).
-/

namespace EveDB

open Std

/-! ### Catalogs -/

/-- **A well-formed catalog**: all of its definitions can be stored. -/
structure Catalog.Formed (catalog : Catalog) : Prop where
  sound : catalog.Sound
  valid : ∀ (id : ℕ) t, catalog[id]? = some t → t.Valid

namespace Catalog

variable {catalog catalog' : Catalog} {t : Table}

theorem formed_empty : (∅ : Catalog).Formed :=
  ⟨.empty, fun id t ht => by rw [ExtTreeMap.getElem?_empty] at ht; cases ht⟩

/-- **A typed definition that is taken** keeps a catalog well-formed. -/
theorem Formed.change (h : catalog.Formed) (hchange : catalog.change t = .ok catalog')
    (htyped : (Operation.table t).Typed) : catalog'.Formed := by
  refine ⟨h.sound.change hchange, fun id t' ht' => ?_⟩
  have hvalid := h.sound.valid hchange htyped
  obtain ⟨⟨⟩, -, heq⟩ := bind_eq_ok.mp hchange
  cases heq
  rw [ExtTreeMap.getElem?_insert] at ht'
  split at ht'
  · cases ht'
    exact hvalid
  · exact h.valid id t' ht'

theorem Formed.table (h : catalog.Formed) {id : ℕ} (htable : catalog.table id = .ok t) :
    t.Valid := by
  unfold Catalog.table at htable
  split at htable
  · next hfound =>
    cases htable
    exact h.valid id t hfound
  · cases htable

end Catalog

namespace Table.Valid

variable {table : Table} {schema : Schema}

/-- A schema of a valid table can be stored, and so can its number. -/
theorem of_mem (h : table.Valid) (hmem : schema ∈ table.schemas) :
    schema.Valid ∧ schema.version < 2 ^ 64 := by
  refine ⟨h.schema_valid schema hmem, ?_⟩
  obtain ⟨i, hi, rfl⟩ := List.getElem_of_mem hmem
  have heq := h.version_eq i hi
  have hlt := h.length_lt
  omega

theorem version (h : table.Valid) {version : ℕ} (hschema : table.version version = .ok schema) :
    schema.Valid ∧ version < 2 ^ 64 := by
  unfold Table.version at hschema
  split at hschema
  · next found hfound =>
    cases hschema
    have hversion : schema.version = version := by simpa using List.find?_some hfound
    exact hversion ▸ h.of_mem (List.mem_of_find?_eq_some hfound)
  · cases hschema

theorem latest (h : table.Valid) (hschema : Store.Staging.latest table = .ok schema) :
    schema.Valid ∧ schema.version < 2 ^ 64 := by
  unfold Store.Staging.latest Table.schema at hschema
  split at hschema
  · next hlast =>
    cases hschema
    exact h.of_mem (List.mem_of_getLast? hlast)
  · cases hschema

end Table.Valid

/-! ### Rows -/

namespace Schema

/-- **A completed row** has no other fields than those it had and those of the schema. -/
theorem complete_result {fields : List Field} {row out : Fields}
    (h : complete fields row = .ok out) :
    Completes row out ∧ ∀ id ∈ out, id ∈ row ∨ id ∈ fields.map Field.id := by
  induction fields generalizing row with
  | nil =>
    cases h
    exact ⟨.refl _, fun id hid => Or.inl hid⟩
  | cons f fields ih =>
    rw [complete] at h
    split_ifs at h with hmem hnull
    · obtain ⟨hcompletes, hids⟩ := ih h
      exact ⟨hcompletes, fun id hid => (hids id hid).imp_right (List.mem_cons_of_mem _)⟩
    · obtain ⟨hcompletes, hids⟩ := ih h
      have hnew : f.id ∉ row := fun hc => hmem (ExtTreeMap.mem_iff_contains.mp hc)
      refine ⟨(Completes.insert_null hnew).trans hcompletes, fun id hid => ?_⟩
      rcases hids id hid with hrow | hfield
      · rcases ExtTreeMap.mem_insert.mp hrow with heq | hrow
        · obtain rfl := LawfulEqOrd.eq_of_compare heq
          exact Or.inr List.mem_cons_self
        · exact Or.inl hrow
      · exact Or.inr (List.mem_cons_of_mem _ hfield)

/-- **A row that a schema completes** can be stored: its fields are fields of the schema, and it has
been found short enough. -/
theorem Valid.storable {schema : Schema} (h : schema.Valid) {fields row : Fields}
    (hok : schema.normalize fields true = .ok row) : row.Storable := by
  obtain ⟨⟨⟩, hcheck, hok⟩ := bind_eq_ok.mp hok
  obtain ⟨out, hrow, hok⟩ := bind_eq_ok.mp hok
  dsimp only at hrow hok
  split_ifs at hok with hsize
  cases hok
  obtain ⟨⟨-, hold⟩, hids⟩ := complete_result hrow
  have hget (p : ℕ × Value) (hp : p ∈ row.toList) : row[p.1]? = some p.2 :=
    ExtTreeMap.mem_toList_iff_getElem?_eq_some.mp hp
  have haccepts (id : ℕ) (v : Value) (hv : fields[id]? = some v) :
      ∃ f, schema.fields.find? (fun g => g.id = id) = some f ∧ f.accepts v = true :=
    checkFields_eq_ok.mp hcheck (id, v) (ExtTreeMap.mem_toList_iff_getElem?_eq_some.mpr hv)
  have hfield (p : ℕ × Value) (hp : p ∈ row.toList) : p.1 ∈ schema.fields.map Field.id := by
    rcases hids p.1
      (ExtTreeMap.mem_iff_isSome_getElem?.mpr (by rw [hget p hp]; rfl)) with hold | hnew
    · obtain ⟨v, hv⟩ := Option.isSome_iff_exists.mp (ExtTreeMap.mem_iff_isSome_getElem?.mp hold)
      obtain ⟨f, hfind, -⟩ := haccepts p.1 v hv
      exact List.mem_map.mpr ⟨f, List.mem_of_find?_eq_some hfind,
        by simpa using List.find?_some hfind⟩
    · exact hnew
  constructor
  · have hsub : row.toList.map Prod.fst ⊆ schema.fields.map Field.id := by
      rintro _ hid
      obtain ⟨p, hp, rfl⟩ := List.mem_map.mp hid
      exact hfield p hp
    have hle := (List.subperm_of_subset row.nodup_keys hsub).length_le
    rw [List.length_map, List.length_map] at hle
    have hvalid := h.validate_eq
    unfold Schema.validate at hvalid
    split at hvalid
    · cases hvalid
    · omega
  · intro p hp
    obtain ⟨f, hf, heq⟩ := List.mem_map.mp (hfield p hp)
    exact heq ▸ h.id_lt f hf
  · intro p hp
    have hlength : (encodeAssignment p).length ≤ maxRecord / 2 :=
      (Encoder.length_item_le encodeAssignment hp).trans (Nat.le_of_not_lt hsize)
    rw [length_encodeAssignment] at hlength
    cases hvalue : p.2 with
    | null | bool v | int64 v | uint64 v => trivial
    | text v | bytes v =>
      rw [hvalue, valueEncodedLen, maxRecord] at hlength
      change _ < 2 ^ 64
      omega
    | float64 bits =>
      -- it has come from the assignments, and nothing else is accepted there
      rcases hold p.1 p.2 (hget p hp) with hv | hnull
      · obtain ⟨f, -, hf⟩ := haccepts p.1 p.2 hv
        rw [hvalue, Field.accepts, Bool.and_eq_true] at hf
        exact hf.2
      · rw [hvalue] at hnull
        cases hnull

end Schema

/-- **An event takes a state to one that can be stored.** -/
theorem applyEvent_state {id : ℕ} {state state' : Entity} {event : Event} {table : Table}
    (h : state.State id) (htable : table.Valid) (hok : applyEvent state event table = .ok state') :
    state'.State id ∧ state'.version = state.version + 1 := by
  obtain ⟨-, hversion, hle, schema, fields, hschema, hfields, rfl⟩ := Store.applyEvent_eq hok
  obtain ⟨hvalid, hlt⟩ := htable.version hschema
  refine ⟨⟨h.id_eq, h.id_lt, ?_, hlt, hvalid.storable hfields⟩, hversion⟩
  change event.version < 2 ^ 64
  rw [hversion]
  exact Nat.lt_succ_of_le hle

namespace Store

/-! ### Reconstruction -/

/-- Whatever a reading returns is so. -/
abbrev Returns {α : Type} (p : Reading α) (R : α → Prop) : Prop :=
  Guarded.Yields (fun _ => True) p R

namespace Returns

variable {α β : Type} {p : Reading α} {R : α → Prop} {S : β → Prop}

theorem of_result (h : Returns p R) {a : α} (ha : p.result = .ok a) : R a :=
  h (fun _ _ => trivial) a ha

/-- Behind a reading of which nothing needs to be known. -/
theorem then_ {f : α → Reading β} (hf : ∀ a, Returns (f a) S) : Returns (p >>= f) S :=
  Guarded.Yields.bind (R := fun _ => True) (fun _ _ _ => trivial) fun a _ => hf a

theorem error {e : Error} : Returns (Guarded.lift (.error e) : Reading α) R :=
  .lift (by rintro _ ⟨⟩)

theorem error_bind {e : Error} {f : α → Reading β} :
    Returns ((Guarded.lift (.error e) : Reading α) >>= f) S :=
  Guarded.Yields.bind (R := fun _ => False) error fun _ h => h.elim

end Returns

section Reconstruction

variable {root : Checkpoint} {table id : ℕ}

/-- **A state that is read from a checkpoint.** -/
theorem Checkpoint.state_returns (charged : Bool) (kind locator : ℕ) :
    Returns (root.state charged table kind locator id) (Entity.State id) := by
  unfold Checkpoint.state
  refine Returns.then_ fun slot => Returns.then_ fun raw => Returns.then_ fun size =>
    Returns.then_ fun _ => ?_
  have hdecoded : Returns (do
      let e ← Guarded.lift (decodeEntity raw)
      if e.id ≠ id then Guarded.lift (corrupt "index references another entity") else return e)
      (Entity.State id) := by
    refine Guarded.Yields.bind (.lift fun e he => decodeEntity_state he) fun e he => ?_
    split
    · exact Returns.error
    · next hid => exact .pure (not_not.mp hid ▸ he)
  dsimp only
  split
  · exact Returns.then_ fun _ => hdecoded
  · exact hdecoded

theorem Checkpoint.current_returns :
    Returns (root.current table id) fun found => ∀ e ∈ found, e.State id := by
  refine Returns.then_ fun value => ?_
  split
  · exact .pure (by rintro _ ⟨⟩)
  · refine (state_returns false 0 _).bind fun e he => .pure ?_
    rintro _ ⟨⟩
    exact he

theorem Checkpoint.historyState_returns (location : IndexValue) :
    Returns (root.historyState table location id) (Entity.State id) := by
  unfold Checkpoint.historyState
  split
  · exact Returns.error
  · refine .then_ fun raw => .then_ fun size => .then_ fun _ => ?_
    refine Guarded.Yields.bind (.lift fun e he => decodeEntity_state he) fun e he => ?_
    split
    · exact Returns.error
    · next hid => exact .pure (not_not.mp hid ▸ he)

/-- Events that are replayed take a state on. -/
theorem Checkpoint.replayEvents_returns {definition : Table} (hdefinition : definition.Valid)
    (entries : List (Result (Key × IndexValue))) {state : Entity} (h : state.State id) :
    Returns (root.replayEvents table id definition state entries) (Entity.State id) := by
  induction entries generalizing state with
  | nil => exact .pure h
  | cons entry entries ih =>
    refine Returns.then_ fun located => Returns.then_ fun found => ?_
    dsimp only
    split
    · exact Returns.error
    · exact Guarded.Yields.bind (.lift fun e he => (applyEvent_state h hdefinition he).1)
        fun e he => ih he

theorem Checkpoint.advance_returns (hcatalog : Catalog.Formed root.manifest.catalog)
    {state : Entity}
    (h : state.State id) (version : ℕ) (snapshots : Bool) :
    Returns (root.advance table id state version snapshots) (Entity.State id) := by
  unfold Checkpoint.advance
  split
  · exact Returns.error
  · next definition hdefinition =>
    have hrest (start : Entity) (hstart : start.State id) : Returns (
        if start.version = version then return start
        else do
          let state ← root.replayEvents table id definition start
            (root.files.scanIndex table 4 (id, start.version + 1) (id, version))
          if state.version ≠ version then Guarded.lift (corrupt "gap in indexed history")
          else return state) (Entity.State id) := by
      split
      · exact .pure hstart
      · refine (replayEvents_returns (hcatalog.valid table definition hdefinition) _ hstart).bind
          fun e he => ?_
        split
        · exact Returns.error
        · exact .pure he
    dsimp only
    split
    · refine Returns.then_ fun found => ?_
      split
      · split
        · refine (historyState_returns _).bind fun snapshot hsnapshot => ?_
          split
          · exact Returns.error_bind
          · exact hrest snapshot hsnapshot
        · exact hrest state h
      · exact hrest state h
    · exact hrest state h

end Reconstruction

/-! ### Entities -/

/-- **An entity in memory** whose states can be stored. What it goes back to in a checkpoint can be
reconstructed there. -/
structure EntityData.Formed (id : ℕ) (data : EntityData) : Prop where
  current : data.current.State id
  base : data.base.State id
  ordered : data.base.version ≤ data.current.version
  snapshots : ∀ (version : ℕ) e, data.snapshots[version]? = some e → e.State id
  source : ∀ source ∈ data.disk, Catalog.Formed source.root.manifest.catalog

section At

variable {id : ℕ} {data : EntityData} {table : Table}

theorem applyEvents_state (htable : table.Valid) (events : List Event) {state e : Entity}
    (h : state.State id) (hok : applyEvents table state events = .ok e) : e.State id := by
  induction events generalizing state with
  | nil =>
    cases hok
    exact h
  | cons event events ih =>
    obtain ⟨state', hstate', hok⟩ := bind_eq_ok.mp hok
    exact ih (applyEvent_state h htable hstate').1 hok

theorem applyAhead_state (htable : table.Valid) (events : List Event) {state e : Entity}
    (h : state.State id) (hok : applyAhead table state events = .ok e) : e.State id := by
  induction events generalizing state with
  | nil =>
    cases hok
    exact h
  | cons event events ih =>
    rw [applyAhead] at hok
    dsimp only at hok
    split at hok
    · obtain ⟨state', hstate', hok⟩ := bind_eq_ok.mp hok
      exact ih (applyEvent_state h htable hstate').1 hok
    · exact ih h hok

theorem EntityData.Formed.start (h : data.Formed id) (version : ℕ) (useSnapshots : Bool) :
    (data.start version useSnapshots).State id := by
  unfold EntityData.start
  split
  · next snapshot hfloor =>
    split
    · obtain ⟨p, hp, rfl⟩ := Option.map_eq_some_iff.mp hfloor
      have hmem := List.mem_of_mem_filter (List.mem_of_getLast? hp)
      exact h.snapshots p.1 p.2 (ExtTreeMap.mem_toList_iff_getElem?_eq_some.mp hmem)
    · exact h.base
  · exact h.base

theorem EntityData.Formed.fromDisk (h : data.Formed id) {state : Entity} (hstate : state.State id)
    (version : ℕ) (useSnapshots : Bool) :
    Returns (data.fromDisk state version useSnapshots) (Entity.State id) := by
  unfold EntityData.fromDisk
  rw [h.current.id_eq]
  split
  · exact .pure hstate
  · next source hsource =>
    split
    · split
      · refine Checkpoint.current_returns.bind fun found hfound => ?_
        split
        · exact .pure (hfound _ rfl)
        · exact Returns.error
      · exact Checkpoint.advance_returns (h.source source hsource) hstate _ _
    · exact .pure hstate

/-- **Every version that is reconstructed** can be stored. -/
theorem EntityData.Formed.at_returns (h : data.Formed id) (htable : table.Valid) (version : ℕ)
    (useSnapshots : Bool) : Returns (data.at table version useSnapshots) fun e =>
      e.State id ∧ e.version = version ∧ version ≤ data.current.version := by
  unfold EntityData.at
  split
  · exact Returns.error
  · next hwithin =>
    have hle : version ≤ data.current.version := by omega
    split
    · next hcurrent => exact .pure ⟨h.current, hcurrent.2.symm, hle⟩
    · refine (h.fromDisk (h.start version useSnapshots) version useSnapshots).bind
        fun state hstate => ?_
      refine Guarded.Yields.bind (.lift fun e he => applyEvents_state htable _ hstate he)
        fun state hstate => ?_
      refine Guarded.Yields.bind (.lift fun e he => applyAhead_state htable _ hstate he)
        fun state hstate => ?_
      split
      · exact Returns.error
      · next hversion => exact .pure ⟨hstate, not_not.mp hversion, hle⟩

/-- **Moving the base of a history** keeps an entity so. -/
theorem EntityData.Formed.retain (h : data.Formed id) (htable : table.Valid) {count : ℕ}
    {data' : EntityData} (hok : (data.retain table count).result = .ok data') :
    data'.Formed id := by
  rcases EntityData.retain_result hok with rfl | ⟨version, base, -, -, hbase, rfl⟩
  · exact h
  · obtain ⟨hstate, hversion, hle⟩ := (h.at_returns htable version true).of_result hbase
    refine ⟨h.current, hstate, ?_, fun v e he => ?_, h.source⟩
    · exact hversion.trans_le hle
    · change (retainFrom data.snapshots version)[v]? = some e at he
      rw [getElem?_retainFrom] at he
      split at he
      · exact h.snapshots v e he
      · cases he

end At

/-- **An entity of a checkpoint** can be stored again. -/
theorem Checkpoint.entity_formed {root : Checkpoint}
    (hcatalog : Catalog.Formed root.manifest.catalog)
    {charged : Bool} {table id : ℕ} {data : EntityData}
    (h : (root.entity charged table id).result = .ok (some data)) : data.Formed id := by
  obtain ⟨value, -, hcurrent, hbase, hle, -, -, hsnapshots, hdisk⟩ := Checkpoint.entity_result h
  refine ⟨(state_returns charged 0 _).of_result hcurrent,
    (state_returns charged 1 _).of_result hbase,
    hle, fun version e he => ?_, ?_⟩
  · rw [hsnapshots, ExtTreeMap.getElem?_empty] at he
    cases he
  · rw [hdisk]
    rintro _ ⟨⟩
    exact hcatalog

/-! ### Operations -/

/-- **A view whose states can be stored.** -/
structure ReadState.Formed (view : ReadState) : Prop where
  catalog : Catalog.Formed view.catalog
  root : Catalog.Formed view.root.manifest.catalog
  overlay : Every (fun key data => data.Formed key.2) view.overlay

theorem ReadState.Formed.loadCharged {view : ReadState} (h : view.Formed) {charged : Bool}
    {table id : ℕ} {data : EntityData}
    (hload : (view.loadCharged charged table id).result = .ok (some data)) : data.Formed id := by
  obtain ⟨-, hoverlay | ⟨-, hdisk⟩⟩ := loadCharged_result hload
  · exact h.overlay _ data hoverlay
  · exact Checkpoint.entity_formed h.root hdisk

namespace Staging

/-- What a transaction has staged can be stored. -/
structure Formed (s : Staging) : Prop where
  base : s.base.Formed
  catalog : Catalog.Formed s.catalog
  staged : Every (fun key data => data.Formed key.2) s.staged

/-- **What an operation makes of an entity** can be stored. -/
theorem Edits.formed {s : Staging} {staged : SortedMap (ℕ × ℕ) EntityData} {table : Table}
    {operation : Operation} {data : EntityData} {key : ℕ × ℕ}
    (h : s.Edits staged table operation data)
    (hstaged : Every (fun key data => data.Formed key.2) staged) (htable : table.Valid)
    (htyped : operation.Typed) (hkey : operation.entityKey = some key) : data.Formed key.2 := by
  have hadded {id : ℕ} {data : EntityData} {event : Event} {current : Entity}
      (hdata : data.Formed id) (hcurrent : applyEvent data.current event table = .ok current) :
      EntityData.Formed id { data with current, events := data.events ++ [event] } := by
    obtain ⟨hstate, hversion⟩ := applyEvent_state hdata.current htable hcurrent
    refine ⟨hstate, hdata.base, ?_, hdata.snapshots, hdata.source⟩
    change data.base.version ≤ current.version
    rw [hversion]
    exact Nat.le_succ_of_le hdata.ordered
  cases h with
  | @create t id fields row schema hnew hschema hrow =>
    cases hkey
    obtain ⟨hvalid, hlt⟩ := htable.latest hschema
    have hstate : Entity.State id (created id schema.version row).current :=
      ⟨rfl, htyped.2.1, Nat.two_pow_pos 64, hlt, hvalid.storable hrow⟩
    refine ⟨hstate, hstate, le_rfl, fun version e he => ?_, by rintro _ ⟨⟩⟩
    rw [created, ExtTreeMap.getElem?_empty] at he
    cases he
  | apply hdata hschema hchanges hsize hevent hcurrent =>
    cases hkey
    exact hadded (hstaged _ _ hdata) hcurrent
  | delete hdata hschema hevent hcurrent =>
    cases hkey
    exact hadded (hstaged _ _ hdata) hcurrent
  | retain hdata hretain =>
    cases hkey
    exact (hstaged _ _ hdata).retain htable hretain
  | snapshot hdata =>
    cases hkey
    have hformed := hstaged _ _ hdata
    refine ⟨hformed.current, hformed.base, hformed.ordered, fun version e he => ?_, hformed.source⟩
    dsimp only at he
    rw [ExtTreeMap.getElem?_insert] at he
    split at he
    · cases he
      exact hformed.current
    · exact hformed.snapshots version e he

variable (env : Env)

/-- **An operation that is typed** keeps what is staged so, and so does one that does not run. -/
theorem run_formed {operation : Operation} {s s' : Staging} {r : Result Unit} (h : s.Formed)
    (hrun : (run env operation).run s = (r, s')) (htyped : r = .ok () → operation.Typed) :
    s'.Formed := by
  have hloads {key : ℕ × ℕ} {staged : SortedMap (ℕ × ℕ) EntityData} (hloads : s.Loads key staged) :
      Every (fun key data => data.Formed key.2) staged := by
    cases hloads with
    | kept => exact h.staged
    | loaded hnew hdata => exact h.staged.insert (h.base.loadCharged hdata)
  obtain ⟨⟨hbase, -, -⟩, hcases⟩ := run_stages hrun
  have hview : s'.base.Formed := hbase ▸ h.base
  rcases hcases with ⟨hr, hstages⟩ | ⟨-, hcatalog, hsame | ⟨key, -, hload⟩⟩
  · have hoperation := htyped hr
    obtain ⟨hcatalog', hstaged'⟩ : Catalog.Formed s'.catalog ∧
        Every (fun key data => data.Formed key.2) s'.staged := by
      generalize s'.catalog = catalog, s'.staged = staged at hstages
      cases hstages with
      | change heq hchange => exact ⟨h.catalog.change hchange (heq ▸ hoperation), h.staged⟩
      | edit hkey htable hload hedits =>
        have hedited := hedits.formed (hloads hload) (h.catalog.table htable) hoperation hkey
        exact ⟨h.catalog, (hloads hload).insert hedited⟩
    exact ⟨hview, hcatalog', hstaged'⟩
  · exact ⟨hview, hcatalog ▸ h.catalog, hsame ▸ h.staged⟩
  · exact ⟨hview, hcatalog ▸ h.catalog, hloads hload⟩

/-- **How a transaction grows**: if all it has recorded is typed, what it stages can be stored. -/
def Grows (s s' : Staging) : Prop :=
  ∃ more, s'.operations = s.operations ++ more ∧
    ((∀ operation ∈ more, operation.Typed) → s.Formed → s'.Formed)

theorem grows_along : Along env Grows where
  trans a b c := by
    rintro ⟨more, heq, h⟩ ⟨more', heq', h'⟩
    refine ⟨more ++ more', by rw [heq', heq, List.append_assoc], fun htyped ha => ?_⟩
    obtain ⟨htyped, htyped'⟩ := List.forall_mem_append.mp htyped
    exact h' htyped' (h htyped ha)
  same s s' hsame hoperations := by
    refine ⟨[], by rw [hoperations, List.append_nil], fun _ h => ⟨?_, ?_, ?_⟩⟩
    · exact hsame.base ▸ h.base
    · exact hsame.catalog ▸ h.catalog
    · exact hsame.staged ▸ h.staged
  run operation s := by
    rcases hrun : (run env operation).run s with ⟨_ | ⟨⟨⟩⟩, s'⟩
    · refine ⟨[], by rw [run_operations_error env hrun, List.append_nil], fun _ h => ?_⟩
      exact run_formed env h hrun (by rintro ⟨⟩)
    · refine ⟨[operation], run_operations env hrun, fun htyped h => ?_⟩
      exact run_formed env h hrun fun _ => htyped operation (List.mem_singleton_self _)

end Staging

/-- **A batch of typed operations** can be stored. -/
theorem Prepared.HandedOver.formed {view : ReadState} {b : Prepared} (h : b.HandedOver view)
    (hview : view.Formed) (htyped : ∀ operation ∈ b.operations, operation.Typed) :
    Catalog.Formed b.catalog ∧ Every (fun key data => data.Formed key.2) b.staged := by
  obtain ⟨s₀, s, deadline, hbase, hcatalog, hstaged, hoperations, ⟨more, heq, hgrows⟩, rfl⟩ :=
    h.along Staging.grows_along
  rw [hoperations, List.nil_append] at heq
  have hstart : s₀.Formed := by
    refine ⟨hbase ▸ hview, hcatalog ▸ hview.catalog, ?_⟩
    rw [hstaged]
    exact every_empty
  have hformed := hgrows (heq ▸ htyped) hstart
  exact ⟨hformed.catalog, hformed.staged⟩

theorem EntityData.Formed.sealEvents {id : ℕ} {data : EntityData} (h : data.Formed id) :
    data.sealEvents.Formed id := ⟨h.current, h.base, h.ordered, h.snapshots, h.source⟩

/-- **What is bound to another root** can be stored as before. -/
theorem EntityData.Formed.rebind {root : Checkpoint} (hroot : Catalog.Formed root.manifest.catalog)
    {id generation : ℕ} {key : ℕ × ℕ} {data data' : EntityData} (h : data.Formed id)
    (hok : (data.rebind root generation key).result = .ok data') : data'.Formed id := by
  unfold EntityData.rebind at hok
  split at hok
  · rw [Guarded.result_bind] at hok
    obtain ⟨persisted, hpersisted, hok⟩ := bind_eq_ok.mp hok
    cases persisted with
    | none =>
      cases hok
      exact h
    | some persisted =>
      obtain ⟨value, -, -, -, -, -, -, -, hdisk⟩ := Checkpoint.entity_result hpersisted
      have hbound : EntityData.Formed id
          { data with
            committed := retainAbove data.committed persisted.current.version
            snapshots := retainFrom data.snapshots persisted.current.version
            disk := persisted.disk } := by
        refine ⟨h.current, h.base, h.ordered, fun version e he => ?_, ?_⟩
        · dsimp only at he
          rw [getElem?_retainFrom] at he
          split at he
          · exact h.snapshots version e he
          · cases he
        · rw [hdisk]
          rintro _ ⟨⟩
          exact hroot
      dsimp only at hok
      split at hok
      · rw [Guarded.result_bind] at hok
        obtain ⟨_, -, hok⟩ := bind_eq_ok.mp hok
        cases hok
        exact hbound
      · cases hok
        exact hbound
  · cases hok
    exact h

/-! ### Recovery -/

/-- **What replaying a record comes to**: the operations of its payload have been run by a new
transaction, and what they have staged is published. -/
theorem replayTransaction_result {env : Env} {options : Options} {view view' : ReadState} {lsn : ℕ}
    {payload : Bytes} (h : replayTransaction env options view lsn payload = .ok view') :
    ∃ operations t t' s, decodeOps payload = .ok operations ∧
      (∀ s, t.value = some s → s.base = view ∧ s.catalog = view.catalog ∧ s.staged = ∅) ∧
      replayOps env operations t = .ok t' ∧ t'.value = some s ∧
      view' = (s.prepare none).publishView lsn view := by
  obtain ⟨t, ht, h⟩ := bind_eq_ok.mp h
  obtain ⟨operations, hoperations, h⟩ := bind_eq_ok.mp h
  obtain ⟨t', hreplay, h⟩ := bind_eq_ok.mp h
  obtain ⟨staging, htake, h⟩ := bind_eq_ok.mp h
  cases h
  obtain ⟨s₀, hs₀, hvalue⟩ := Transaction.new_value ht
  obtain ⟨s₁, hvalue', rfl⟩ := Transaction.take_value htake
  obtain ⟨_, -, hs₀⟩ := bind_eq_ok.mp hs₀
  cases hs₀
  refine ⟨operations, t, t', s₁, hoperations, fun s hs => ?_, hreplay, hvalue', rfl⟩
  rw [hvalue] at hs
  cases hs
  exact ⟨rfl, rfl, rfl⟩

/-- A run of typed operations on a lease. -/
theorem replayOps_formed {env : Env} {operations : List Operation} {t t' : Transaction}
    (ht : ∀ s, t.value = some s → s.Formed) (htyped : ∀ operation ∈ operations, operation.Typed)
    (h : replayOps env operations t = .ok t') : ∀ s, t'.value = some s → s.Formed := by
  induction operations generalizing t with
  | nil =>
    cases h
    exact ht
  | cons operation operations ih =>
    obtain ⟨hhead, htyped⟩ := List.forall_mem_cons.mp htyped
    rw [replayOps] at h
    split at h
    · next t₁ hwith =>
      refine ih (fun s hs => ?_) htyped h
      rcases Transaction.with_cases hwith with ⟨-, hnone⟩ | ⟨s₁, s₂, ticks, hs₁, hrun, -, hvalue⟩
      · rw [hnone] at hs
        cases hs
      · rw [hvalue] at hs
        cases hs
        have hlooked : s₁.looked.Formed :=
          ⟨(ht s₁ hs₁).base, (ht s₁ hs₁).catalog, (ht s₁ hs₁).staged⟩
        obtain ⟨hbase, hcatalog, hstaged⟩ := Staging.run_formed env hlooked hrun fun _ => hhead
        exact ⟨hbase, hcatalog, hstaged⟩
    · cases h

/-- **A record that is replayed** keeps a view so. -/
theorem ReadState.Formed.replayTransaction {env : Env} {options : Options} {view view' : ReadState}
    {lsn : ℕ} {payload : Bytes} (h : view.Formed)
    (hok : replayTransaction env options view lsn payload = .ok view') : view'.Formed := by
  obtain ⟨operations, t, t', s, hoperations, hnew, hreplay, hvalue, rfl⟩ :=
    replayTransaction_result hok
  have hstart : ∀ s, t.value = some s → s.Formed := by
    intro s hs
    obtain ⟨hbase, hcatalog, hstaged⟩ := hnew s hs
    refine ⟨hbase ▸ h, hcatalog ▸ h.catalog, ?_⟩
    rw [hstaged]
    exact every_empty
  have hformed := replayOps_formed hstart (decodeOps_typed hoperations) hreplay s hvalue
  refine ⟨hformed.catalog, h.root, ?_⟩
  exact h.overlay.sealOver hformed.staged fun key data hdata => hdata.sealEvents

end Store

end EveDB
