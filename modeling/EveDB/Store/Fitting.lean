import EveDB.Store.Lengths
import EveDB.Store.Ordered

/-!
# What is admitted fits

A state fits when a decoded record may take as much memory as it does, and a stored one as many
bytes (`Entity.Fits`). What a transaction loads fits, since loading it has been granted
(`ReadState.Fits.loadCharged`). What it writes is checked: a row that is created when it has been
completed, a row that is changed before it is completed, and a row that is deleted not at all. So
operations keep what is staged fitting as long as there is room for the fields a row lacks of the
newest schema (`Staging.HasRoom`, `Staging.run_fits`), and from there so do the calls of a
transaction (`Call.performAll_fits`).
-/

namespace EveDB

open Std

/-! ### What is loaded -/

/-- **A state that fits**: reads are granted what it takes, and it can be stored. -/
structure Entity.Fits (limit : ℕ) (e : Entity) : Prop where
  decoded : entityBytes e ≤ limit
  encoded : (encodeEntity e).length ≤ maxRecord

namespace Store

open Fallible

/-- No record on a page is longer than a record may be. -/
def Files.Bounded (files : Files) : Prop :=
  ∀ (file : FileId) (id : ℕ) (page : HeapPage), files.page file id = .ok page →
    ∀ record, some record ∈ page.records → record.length ≤ maxRecord

theorem Files.readPage_eq_ok {files : Files} {file : FileId} {id lsn : ℕ} {page : HeapPage}
    (h : files.readPage file id lsn = .ok page) : files.page file id = .ok page := by
  obtain ⟨found, hfound, h⟩ := bind_eq_ok.mp h
  split at h
  · cases h
  · cases h
    exact hfound

/-- **A record that is read is no longer than a record may be.** -/
theorem Files.Bounded.readBuffer {files : Files} (h : files.Bounded) {file : FileId}
    {location lsn : ℕ} {bytes : Bytes}
    (hread : (files.readBuffer file location lsn).result = .ok bytes) :
    bytes.length ≤ maxRecord := by
  unfold Files.readBuffer at hread
  rw [Guarded.result_bind] at hread
  obtain ⟨page, hpage, hread⟩ := bind_eq_ok.mp hread
  dsimp only at hread
  split at hread
  · cases hread
  · next record hrecord =>
    split at hread
    · rw [Guarded.result_bind] at hread
      obtain ⟨_, -, hread⟩ := bind_eq_ok.mp hread
      cases hread
      have hmem := List.mem_of_getElem? (Option.join_eq_some_iff.mp hrecord)
      have := h _ _ page (Files.readPage_eq_ok hpage) record hmem
      rw [List.length_drop]
      omega
    · split at hread
      · split at hread
        · cases hread
        · next hvalid =>
          rw [Guarded.result_bind] at hread
          obtain ⟨_, -, hread⟩ := bind_eq_ok.mp hread
          rw [Guarded.result_bind] at hread
          obtain ⟨all, -, hread⟩ := bind_eq_ok.mp hread
          split at hread
          · cases hread
          · cases hread
            omega
      · cases hread

/-- The request stays within a limit on decoded records. -/
def Request.Within (limit : ℕ) : Request → Prop
  | .decoded bytes => bytes ≤ limit
  | _ => True

/-- **An entity that fits**, with the events in memory that lead to its current state. -/
structure EntityData.Fits (limit : ℕ) (data : EntityData) : Prop where
  current : data.current.Fits limit
  events : ∀ event ∈ data.events, eventBytes event ≤ limit
  committed : ∀ (version : ℕ) (event : Event), data.committed[version]? = some event →
    eventBytes event ≤ limit

/-- A view of entities that fit. -/
structure ReadState.Fits (limit : ℕ) (view : ReadState) : Prop where
  files : view.root.files.Bounded
  overlay : Each (EntityData.Fits limit) view.overlay

section Loads

variable {limit : ℕ} {charged : Bool} {table id : ℕ}

/-- **A state is loaded from a checkpoint when it fits.** -/
theorem Checkpoint.state_yields {root : Checkpoint} (hroot : root.files.Bounded)
    {kind locator : ℕ} :
    (root.state charged table kind locator id).Yields (Request.Within limit)
      (Entity.Fits limit) := by
  unfold Checkpoint.state
  refine Guarded.Yields.bind (.lift fun slot hslot => hslot) fun slot _ => ?_
  refine Guarded.Yields.bind (R := fun raw => raw.length ≤ maxRecord)
    (fun _ raw hraw => hroot.readBuffer hraw) fun raw hlength => ?_
  refine Guarded.Yields.bind (.lift fun size hsize => hsize) fun size hsize => ?_
  refine (Guarded.Yields.ask _).bind fun _ hgranted => ?_
  have hdecoded : Guarded.Yields (Request.Within limit) (do
      let e ← Guarded.lift (decodeEntity raw)
      if e.id ≠ id then Guarded.lift (corrupt "index references another entity") else return e)
      (Entity.Fits limit) := by
    refine Guarded.Yields.bind (.lift fun e he => he) fun e he => ?_
    split
    · exact .lift (by rintro _ ⟨⟩)
    · have hscan := scan_of_decodeEntity (hlength.trans_lt (by decide)) he
      rw [hsize] at hscan
      cases hscan
      exact .pure ⟨hgranted, (length_encodeEntity_of_decode he).trans_le hlength⟩
  dsimp only
  split
  · exact (Guarded.Yields.ask _).bind fun _ _ => hdecoded
  · exact hdecoded

/-- So is an entity, of whose history nothing is in memory yet. -/
theorem Checkpoint.entity_yields {root : Checkpoint} (hroot : root.files.Bounded) :
    (root.entity charged table id).Yields (Request.Within limit)
      fun found => ∀ data, found = some data → data.Fits limit := by
  unfold Checkpoint.entity
  refine Guarded.Yields.bind (.lift fun value hvalue => hvalue) fun value _ => ?_
  split
  · exact .pure (by rintro _ ⟨⟩)
  · refine (state_yields hroot).bind fun current hcurrent => ?_
    refine Guarded.Yields.bind (R := Entity.Fits limit) (state_yields hroot) fun base _ => ?_
    split
    · exact .lift (by rintro _ ⟨⟩)
    · refine .pure ?_
      rintro _ ⟨⟩
      refine ⟨hcurrent, List.forall_mem_nil _, fun version event hevent => ?_⟩
      rw [ExtTreeMap.getElem?_empty] at hevent
      cases hevent

/-- **An entity is loaded from a view when it fits.** -/
theorem ReadState.Fits.loadCharged {view : ReadState} (h : view.Fits limit) :
    (view.loadCharged charged table id).Yields (Request.Within limit)
      fun found => ∀ data, found = some data → data.Fits limit := by
  intro hrequests found hfound
  rintro data rfl
  obtain ⟨-, hoverlay | ⟨hnone, -⟩⟩ := loadCharged_result hfound
  · exact h.overlay _ data hoverlay
  · unfold ReadState.loadCharged at hrequests hfound
    rw [hnone] at hrequests hfound
    have hyields : Guarded.Yields (Request.Within limit)
        (Guarded.lift (view.catalog.table table) >>= fun _ => view.root.entity charged table id)
        fun found => ∀ data, found = some data → data.Fits limit :=
      Guarded.Yields.bind (R := fun _ => True) (fun _ _ _ => trivial) fun _ _ =>
        Checkpoint.entity_yields h.files
    exact hyields hrequests _ hfound data rfl

end Loads

end Store

/-! ### What is written -/

/-- **There is room for the fields a row lacks** behind a change, when it is completed: none is
lacking, or the changed row and their allowances stay within the limit. -/
def Schema.LeavesRoom (limit : ℕ) (schema : Schema) (current changes : Fields) : Prop :=
  let lacking := missing schema.fields (current.insertMany changes.toList)
  lacking = 0 ∨ (mergedSizes current changes).1 + fieldAllowance * lacking ≤ limit

/-- A row that is normalized is the row that was completed, and is not too long. -/
theorem Schema.normalize_eq_ok {schema : Schema} {fields out : Fields} {whole : Bool}
    (h : schema.normalize fields whole = .ok out) :
    (if whole then complete schema.fields fields else .ok fields) = .ok out ∧
      fieldsEncodedLen out ≤ maxRecord / 2 := by
  obtain ⟨_, -, h⟩ := bind_eq_ok.mp h
  have hbounded {row : Result Fields} (h : (row >>= fun fields =>
      if (encodeFields fields).length > maxRecord / 2 then .error (.invalid "row exceeds 8 MiB")
      else return fields) = .ok out) : row = .ok out ∧ fieldsEncodedLen out ≤ maxRecord / 2 := by
    obtain ⟨fields, hfields, h⟩ := bind_eq_ok.mp h
    split at h
    · cases h
    · next hle =>
      cases h
      rw [length_encodeFields] at hle
      exact ⟨hfields, Nat.not_lt.mp hle⟩
  cases whole
  · exact hbounded h
  · exact hbounded h

/-- Completing a row under a schema whose fields are distinct adds just the allowances. -/
theorem fieldsBytes_complete_eq {fields : List Field} (hfields : (fields.map Field.id).Nodup)
    {row out : Fields} (h : Schema.complete fields row = .ok out) :
    fieldsBytes out = fieldsBytes row + fieldAllowance * missing fields row := by
  induction fields generalizing row with
  | nil =>
    cases h
    rfl
  | cons field fields ih =>
    obtain ⟨hnew, hfields⟩ := List.nodup_cons.mp hfields
    rw [Schema.complete] at h
    split at h
    · next hmem =>
      have heq : missing (field :: fields) row = missing fields row :=
        congrArg List.length (List.filter_cons_of_neg (by simpa using hmem))
      rw [heq]
      exact ih hfields h
    · next hmem =>
      split at h
      · have hlacks : field.id ∉ row := fun hc => hmem (ExtTreeMap.mem_iff_contains.mp hc)
        have heq : missing (field :: fields) row = missing fields row + 1 := by
          rw [missing, List.filter_cons_of_pos (by simpa using hmem), List.length_cons, missing]
        -- the null is no field of those to come
        have hsame : missing fields (row.insert field.id .null) = missing fields row := by
          refine congrArg List.length (List.filter_congr fun other hother => ?_)
          have hne : field.id ≠ other.id := fun hc => hnew (hc ▸ List.mem_map_of_mem hother)
          simp [hne]
        have hnull : fieldBytes (field.id, .null) = fieldAllowance := rfl
        rw [ih hfields h, hsame, fieldsBytes_insert hlacks, heq, hnull]
        ring
      · cases h

/-- **The room is what it takes**: under a schema that is valid, a row whose change was admitted
stays within the limit when it is completed if and only if there was room. -/
theorem Schema.leavesRoom_iff {limit : ℕ} {schema : Schema} (hvalid : schema.validate = .ok ())
    {current changes fields : Fields} (hsize : (mergedSizes current changes).1 ≤ limit)
    (h : schema.normalize (current.insertMany changes.toList) true = .ok fields) :
    schema.LeavesRoom limit current changes ↔ entitySize + fieldsBytes fields ≤ limit := by
  rw [fieldsBytes_complete_eq (Schema.nodup_ids hvalid) (Schema.normalize_eq_ok h).1]
  have hmerged := mergedSizes_fst current changes
  constructor
  · rintro (hnone | hroom)
    · rw [hnone]
      omega
    · omega
  · intro hle
    exact Or.inr (by omega)

/-- **A row that has been completed fits** when there was room for what it lacked. -/
theorem Entity.Fits.completed {limit : ℕ} {schema : Schema} {current changes fields : Fields}
    (hroom : schema.LeavesRoom limit current changes)
    (hsize : (mergedSizes current changes).1 ≤ limit)
    (h : schema.normalize (current.insertMany changes.toList) true = .ok fields) {e : Entity}
    (he : e.fields = fields) : e.Fits limit := by
  obtain ⟨hcomplete, hencoded⟩ := Schema.normalize_eq_ok h
  have hle := fieldsBytes_complete hcomplete
  have hmerged := mergedSizes_fst current changes
  refine ⟨?_, ?_⟩
  · rw [entityBytes, he]
    rcases hroom with hnone | hroom
    · rw [hnone] at hle
      omega
    · omega
  · rw [length_encodeEntity, he]
    have hmax : maxRecord = 16777216 := rfl
    omega

namespace Store

open Fallible

section Writes

variable {limit : ℕ} {s : Staging}

namespace Staging

/-- What a transaction has of an entity, or would load. -/
def Holds (s : Staging) (key : ℕ × ℕ) (data : EntityData) : Prop :=
  s.staged[key]? = some data ∨
    key ∉ s.staged ∧ (s.base.loadCharged true key.1 key.2).result = .ok (some data)

/-- **A change of an entity leaves room** for the fields its row lacks of the newest schema. -/
def LeavesRoom (limit : ℕ) (s : Staging) (key : ℕ × ℕ) (changes : Fields) : Prop :=
  ∀ (table : Table) (newest schema : Schema) (data : EntityData),
    s.catalog.table key.1 = .ok table →
    latest table = .ok newest → table.version newest.version = .ok schema → s.Holds key data →
      schema.LeavesRoom limit data.current.fields changes

/-- **There is room for an operation.** A deletion changes no field, but its event counts. -/
def HasRoom (limit : ℕ) (s : Staging) : Operation → Prop
  | .apply t id fields => s.LeavesRoom limit (t, id) fields
  | .delete t id => eventSize ≤ limit ∧ s.LeavesRoom limit (t, id) ∅
  | _ => True

end Staging

/-- An event that fits, and takes the entity to a state that does, is added to it. -/
theorem EntityData.Fits.addEvent {data : EntityData} (h : data.Fits limit) {current : Entity}
    (hcurrent : current.Fits limit) {event : Event} (hevent : eventBytes event ≤ limit) :
    EntityData.Fits limit { data with current, events := data.events ++ [event] } := by
  refine ⟨hcurrent, ?_, h.committed⟩
  exact List.forall_mem_append.mpr ⟨h.events, List.forall_mem_singleton.mpr hevent⟩

/-- What a write makes of an entity fits when there is room for it. -/
theorem EntityData.Fits.write {data : EntityData} (h : data.Fits limit) {table : Table}
    {newest : Schema} {base : ReadState} {id : ℕ} {kind : EventKind} {changes : Fields}
    {event : Event} {current : Entity}
    (hroom : ∀ schema, table.version newest.version = .ok schema →
      schema.LeavesRoom limit data.current.fields changes)
    (hsize : (mergedSizes data.current.fields changes).1 ≤ limit)
    (hchanges : eventSize + fieldsBytes changes ≤ limit)
    (hevent : Staging.nextEvent base newest id data.current kind changes = .ok event)
    (hcurrent : applyEvent data.current event table = .ok current) :
    EntityData.Fits limit { data with current, events := data.events ++ [event] } := by
  obtain ⟨-, -, -, rfl⟩ := Staging.nextEvent_eq hevent
  obtain ⟨-, -, -, schema, fields, hschema, hfields, rfl⟩ := applyEvent_eq hcurrent
  exact h.addEvent (.completed (hroom schema hschema) hsize hfields rfl) hchanges

/-- **What an operation makes of an entity fits** when there is room for it. -/
theorem EntityData.Fits.edits {staged : SortedMap (ℕ × ℕ) EntityData}
    (h : Each (EntityData.Fits limit) staged) (hpermit : s.permit = true)
    (hlimit : s.options.limits.maxDecodedRecordBytes = limit) {key : ℕ × ℕ} {table : Table}
    (htable : s.catalog.table key.1 = .ok table) {operation : Operation}
    (hkey : operation.entityKey = some key) (hroom : s.HasRoom limit operation)
    (hholds : ∀ data, staged[key]? = some data → s.Holds key data) {data : EntityData}
    (hedits : s.Edits staged table operation data) : data.Fits limit := by
  cases hedits with
  | @create t id fields row schema hnew hschema hrow hsize =>
    obtain ⟨_, hdecoded, hencoded⟩ := bind_eq_ok.mp (hsize hpermit)
    obtain ⟨-, hdecoded⟩ := check_eq_ok.mp hdecoded
    obtain ⟨-, hencoded⟩ := check_eq_ok.mp hencoded
    rw [hlimit, Nat.zero_add] at hdecoded
    rw [Nat.zero_add] at hencoded
    refine ⟨⟨hdecoded, (length_encodeEntity _).trans_le hencoded⟩, List.forall_mem_nil _, ?_⟩
    intro version event hevent
    rw [Staging.created, ExtTreeMap.getElem?_empty] at hevent
    cases hevent
  | @apply t id fields changes schema data event current hdata hschema hchanges hsize hevent
      hcurrent =>
    cases hkey
    obtain ⟨hsame, -⟩ := Schema.normalize_eq_ok hchanges
    cases hsame
    obtain ⟨_, hdecoded, hchecked⟩ := bind_eq_ok.mp (hsize hpermit)
    obtain ⟨_, hchanged, -⟩ := bind_eq_ok.mp hchecked
    obtain ⟨-, hdecoded⟩ := check_eq_ok.mp hdecoded
    obtain ⟨-, hchanged⟩ := check_eq_ok.mp hchanged
    rw [hlimit, Nat.zero_add] at hdecoded hchanged
    exact (h _ _ hdata).write (fun schema' hschema' =>
      hroom table schema schema' data htable hschema hschema' (hholds data hdata)) hdecoded hchanged
      hevent hcurrent
  | @delete t id schema data event current hdata hschema hevent hcurrent =>
    cases hkey
    obtain ⟨heventSize, hroom⟩ := hroom
    have hfits := h _ _ hdata
    have hmerged := mergedSizes_fst data.current.fields ∅
    rw [insertMany_empty] at hmerged
    exact hfits.write (fun schema' hschema' =>
      hroom table schema schema' data htable hschema hschema' (hholds data hdata))
      (hmerged.trans_le hfits.current.decoded) heventSize hevent hcurrent
  | retain hdata hretain =>
    rcases EntityData.retain_result hretain with rfl | ⟨version, kept, -, -, -, rfl⟩
    · exact h _ _ hdata
    · obtain ⟨hcurrent, hevents, hcommitted⟩ := h _ _ hdata
      refine ⟨hcurrent, ?_, ?_⟩
      · exact fun event hevent => hevents event (List.mem_of_mem_filter hevent)
      · exact fun v event hevent => hcommitted v event (getElem?_retainAbove hevent).2
  | snapshot hdata =>
    obtain ⟨hcurrent, hevents, hcommitted⟩ := h _ _ hdata
    exact ⟨hcurrent, hevents, hcommitted⟩

end Writes

/-! ### What a transaction stages -/

/-- The surroundings of a database with this limit, which is not being recovered. -/
structure Env.Limited (limit : ℕ) (env : Env) : Prop where
  recovering : env.recovering = false
  limits : env.limits.maxDecodedRecordBytes = limit

namespace Staging

/-- **What a transaction has staged fits**, and so does everything it can load. -/
structure Fits (limit : ℕ) (s : Staging) : Prop where
  base : s.base.Fits limit
  permit : s.permit = true
  limits : s.options.limits.maxDecodedRecordBytes = limit
  staged : Each (EntityData.Fits limit) s.staged

variable {limit : ℕ} {env : Env} {s s' : Staging}

theorem Fits.same (h : s.Fits limit) (hsame : s.Same s') : s'.Fits limit := by
  obtain ⟨hbase, hpermit, hlimits, hstaged⟩ := h
  refine ⟨?_, hsame.permit.trans hpermit, ?_, ?_⟩
  · rwa [hsame.base]
  · rwa [hsame.options]
  · rwa [hsame.staged]

theorem Fits.staging (h : s.Fits limit) {staged : SortedMap (ℕ × ℕ) EntityData}
    (hstaged : Each (EntityData.Fits limit) staged) : (s.staging staged).Fits limit :=
  ⟨h.base, h.permit, h.limits, hstaged⟩

theorem HasRoom.same {operation : Operation} (h : s.HasRoom limit operation) (hsame : s.Same s') :
    s'.HasRoom limit operation := by
  have hleaves {key : ℕ × ℕ} {changes : Fields} (h : s.LeavesRoom limit key changes) :
      s'.LeavesRoom limit key changes := by
    intro table newest schema data htable hnewest hschema hholds
    rw [hsame.catalog] at htable
    refine h table newest schema data htable hnewest hschema ?_
    rwa [Holds, hsame.staged, hsame.base] at hholds
  cases operation with
  | apply t id fields => exact hleaves h
  | delete t id => exact ⟨h.1, hleaves h.2⟩
  | table t | create t id fields | retain t id count | snapshot t id => trivial

/-- What a transaction has been granted stays within the limit. -/
theorem answer_within (henv : env.Limited limit) (request : Request) (s s' : Staging)
    (h : (answer env request).run s = (.ok (), s')) : request.Within limit := by
  cases request with
  | decoded bytes =>
    obtain ⟨i, t, -, hgrant⟩ := run_bind_eq_ok.mp h
    have hgrant : env.decoded i bytes = .ok () := (Prod.ext_iff.mp hgrant).1
    rw [Env.decoded, henv.recovering] at hgrant
    obtain ⟨_, hcheck, -⟩ := bind_eq_ok.mp hgrant
    obtain ⟨-, hle⟩ := check_eq_ok.mp hcheck
    rwa [henv.limits, Nat.zero_add] at hle
  | scratch bytes | memory bytes | charge bytes => trivial

/-- **What is loaded fits.** -/
theorem loadStaged_fits (henv : env.Limited limit) (key : ℕ × ℕ) :
    Leads (Fits limit) (loadStaged env key) (fun _ => Fits limit) (Fits limit) := by
  refine Leads.get_bind fun u hu => ?_
  split
  · have hread : Leads (Fits limit) (read env (u.base.loadCharged true key.1 key.2))
        (fun found t => (∀ data, found = some data → data.Fits limit) ∧ t.Fits limit)
        (Fits limit) := by
      intro t ht
      have hsame {r : Result (Option EntityData)} {t' : Staging}
          (hrun : (read env (u.base.loadCharged true key.1 key.2)).run t = (r, t')) :
          t'.Fits limit :=
        ht.same (Same.of_charged _ _ ((read_keeps env _).of_run hrun))
      refine ⟨fun found t' hrun => ⟨?_, hsame hrun⟩, fun _ t' hrun => hsame hrun⟩
      exact hu.base.loadCharged.of_run (answer_within henv) hrun
    refine hread.bind_of fun found hfound => ?_
    cases found with
    | none => exact .pure fun _ h => h
    | some data =>
      exact .of_modify fun t ht => ht.staging (ht.staged.insert (hfound data rfl))
  · exact .pure fun _ h => h

/-- What an operation finds under its key is what it could have loaded. -/
theorem Loads.holds {key : ℕ × ℕ} {staged : SortedMap (ℕ × ℕ) EntityData} (h : s.Loads key staged)
    (data : EntityData) (hdata : staged[key]? = some data) : s.Holds key data := by
  cases h with
  | kept => exact Or.inl hdata
  | loaded hnew hfound =>
    rw [ExtTreeMap.getElem?_insert_self] at hdata
    cases hdata
    exact Or.inr ⟨hnew, hfound⟩

/-- **What executing an operation stages fits** when there is room for it. -/
theorem execute_fits (henv : env.Limited limit) (hs : s.Fits limit) {operation : Operation}
    (hroom : s.HasRoom limit operation) :
    Leads (Charged s) (execute env operation) (fun _ => Fits limit) (Fits limit) := by
  have hcharged (t : Staging) (ht : Charged s t) : t.Fits limit := hs.same (Same.of_charged _ _ ht)
  rcases execute_eq env operation with ⟨t, rfl⟩ | ⟨key, hkey, heq⟩
  · refine Leads.get_bind fun u hu => ?_
    refine Leads.lift_bind hcharged fun catalog _ => ?_
    refine .of_modify fun t ht => ?_
    obtain ⟨hbase, hpermit, hlimits, hstaged⟩ := hcharged t ht
    exact ⟨hbase, hpermit, hlimits, hstaged⟩
  · have hload : Leads (Charged s) (loadStaged env key)
        (fun _ t => ∃ staged, (s.Loads key staged ∧ Each (EntityData.Fits limit) staged) ∧
          Charged (s.staging staged) t) (Fits limit) := by
      intro t ht
      obtain ⟨hok, herror⟩ := loadStaged_fits henv key t (hcharged t ht)
      refine ⟨fun a t' hrun => ?_, herror⟩
      obtain ⟨staged, hloads, ht'⟩ := (loadStaged_leads env key t ht).1 a t' hrun
      have hfits := (hok a t' hrun).staged
      rw [(staging_spec ht').2.2.2.2] at hfits
      exact ⟨staged, ⟨hloads, hfits⟩, ht'⟩
    rw [heq]
    refine ((table_leads key.1).mono_error hcharged).bind_of fun table htable => ?_
    refine hload.bind fun _ => .of_exists fun staged => .of_and ?_
    rintro ⟨hloads, hfits⟩
    refine ((executeOn_leads env hkey).mono_error fun t ht => ?_).mono ?_
    · exact (hs.staging hfits).same (Same.of_charged _ _ ht)
    · rintro _ t ⟨data, hedits, ht⟩
      have hdata := EntityData.Fits.edits hfits hs.permit hs.limits htable hkey hroom hloads.holds
        hedits
      exact (hs.staging (hfits.insert hdata)).same (Same.of_charged _ _ ht)

/-- **An operation that has room keeps what is staged fitting**, whether it succeeds or not. -/
theorem run_fits (henv : env.Limited limit) (hs : s.Fits limit) {operation : Operation}
    (hroom : s.HasRoom limit operation) {r : Result Unit}
    (h : (run env operation).run s = (r, s')) : s'.Fits limit := by
  have hlooked : s.Same s.looked := ⟨rfl, rfl, rfl, rfl, rfl⟩
  have hattempt {r : Result Unit} {t : Staging}
      (h : (attempt env operation).run s.looked = (r, t)) : t.Fits limit := by
    rw [attempt, run_bind] at h
    rcases hcharge : (charge env operation).run s.looked with ⟨err | _, s₁⟩
    · rw [hcharge] at h
      cases h
      exact (hs.same hlooked).same ((charge_keeps env operation).of_run hcharge)
    · have hsame := Same.trans _ _ _ hlooked ((charge_keeps env operation).of_run hcharge)
      rw [hcharge] at h
      obtain ⟨hok, herror⟩ := execute_fits henv (hs.same hsame) (hroom.same hsame) s₁ (.refl s₁)
      cases r with
      | ok a => exact hok a t h
      | error e => exact herror e t h
  obtain ⟨-, -, rfl⟩ | ⟨-, -, rfl⟩ | ⟨-, e, t, ht, -, rfl⟩ | ⟨-, -, t, ht, -, rfl⟩ :=
    run_cases env h
  · exact hs.same hlooked
  · exact hs.same hlooked
  · exact (hattempt ht).same ⟨rfl, rfl, rfl, rfl, rfl⟩
  · exact (hattempt ht).same ⟨rfl, rfl, rfl, rfl, rfl⟩

/-- What needs no room keeps it so. -/
theorem run_keeps_fits (henv : env.Limited limit) {operation : Operation}
    (hroom : ∀ s : Staging, s.HasRoom limit operation) :
    Keeps (fun s s' => s.Fits limit → s'.Fits limit) (run env operation) :=
  fun s hs => run_fits henv hs (hroom s) rfl

theorem maintain_keeps_fits (henv : env.Limited limit) (table id : ℕ) :
    Keeps (fun s s' => s.Fits limit → s'.Fits limit) (maintain env table id) := by
  have hrefl (s : Staging) : s.Fits limit → s.Fits limit := fun hs => hs
  have htrans (a b c : Staging) (hab : a.Fits limit → b.Fits limit)
      (hbc : b.Fits limit → c.Fits limit) : a.Fits limit → c.Fits limit := fun ha => hbc (hab ha)
  refine (Keeps.of_get hrefl).bind htrans fun s => Keeps.bind htrans ?_ fun _ => ?_
  · split
    · exact run_keeps_fits henv fun _ => trivial
    · exact .pure hrefl _
  · split
    · exact run_keeps_fits henv fun _ => trivial
    · exact .pure hrefl _

end Staging

namespace Call

variable {limit : ℕ} {env : Env}

/-- **There is room for a call.** -/
def HasRoom (limit : ℕ) (s : Staging) : Call → Prop
  | .apply t id fields => s.HasRoom limit (.apply t id fields)
  | .delete t id => s.HasRoom limit (.delete t id)
  | _ => True

/-- **There is room for every call of a run** when it comes. -/
def HaveRoom (env : Env) (limit : ℕ) : List Call → Transaction → Prop
  | [], _ => True
  | call :: calls, t =>
    (∀ s, t.value = some s → call.HasRoom limit s) ∧
      HaveRoom env limit calls ((call.perform env).run t).2

/-- **A call that has room keeps what is staged fitting.** -/
theorem stage_fits (henv : env.Limited limit) {call : Call} {s s' : Staging} {r : Result Unit}
    (hs : s.Fits limit) (hroom : call.HasRoom limit s) (h : (call.stage env).run s = (r, s')) :
    s'.Fits limit := by
  have hfailed : Staging.Fits limit { s with failed := true } := hs.same ⟨rfl, rfl, rfl, rfl, rfl⟩
  have hwrite {operation : Operation} {t id : ℕ} (hroom : s.HasRoom limit operation)
      (h : (Staging.run env operation >>= fun _ => Staging.maintain env t id).run s = (r, s')) :
      s'.Fits limit := by
    rw [run_bind] at h
    rcases hrun : (Staging.run env operation).run s with ⟨e | _, s₁⟩
    · rw [hrun] at h
      cases h
      exact Staging.run_fits henv hs hroom hrun
    · rw [hrun] at h
      exact (Staging.maintain_keeps_fits henv t id).of_run h (Staging.run_fits henv hs hroom hrun)
  cases call with
  | createTable name schema =>
    rw [stage_createTable] at h
    split at h
    · refine Staging.run_fits henv hs ?_ h
      trivial
    · cases h
      exact hs
  | renameTable id name =>
    rw [stage_renameTable] at h
    split at h
    · refine Staging.run_fits henv hs ?_ h
      trivial
    · cases h
      exact hfailed
  | alterTable id fields =>
    rw [stage_alterTable] at h
    split at h
    · split at h
      · refine Staging.run_fits henv hs ?_ h
        trivial
      · cases h
        exact hs
    · cases h
      exact hfailed
  | create table id fields | retainLast table id count | snapshot table id =>
    refine Staging.run_fits henv hs ?_ h
    trivial
  | apply table id fields | delete table id =>
    refine hwrite ?_ h
    exact hroom

/-- **So does a run of calls that all have room**, as long as the lease lasts. -/
theorem performAll_fits (henv : env.Limited limit) {calls : List Call} {t t' : Transaction}
    {results : List (Result Unit)} (ht : ∀ s, t.value = some s → s.Fits limit)
    (hroom : HaveRoom env limit calls t) (h : performAll env calls t = (results, t')) :
    ∀ s, t'.value = some s → s.Fits limit := by
  induction calls generalizing t results with
  | nil =>
    cases h
    exact ht
  | cons call calls ih =>
    obtain ⟨hhead, hroom⟩ := hroom
    rcases hcall : (call.perform env).run t with ⟨r, t₁⟩
    rcases hrest : performAll env calls t₁ with ⟨rs, t₂⟩
    rw [performAll, hcall] at h
    dsimp only at h
    rw [hrest] at h
    cases h
    rw [hcall] at hroom
    refine ih (fun s hs => ?_) hroom hrest
    rcases Transaction.with_cases hcall with ⟨-, hnone⟩ | ⟨s₀, s₁, ticks, hs₀, hrun, -, hvalue⟩
    · rw [hnone] at hs
      cases hs
    · rw [hvalue] at hs
      cases hs
      have hlooked : s₀.Same s₀.looked := ⟨rfl, rfl, rfl, rfl, rfl⟩
      have hstaged : s₁.Fits limit :=
        stage_fits henv ((ht s₀ hs₀).same hlooked) (hhead s₀ hs₀) hrun
      exact hstaged.same ⟨rfl, rfl, rfl, rfl, rfl⟩

end Call

end Store

end EveDB
