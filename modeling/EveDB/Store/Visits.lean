import EveDB.Store.History

/-!
# Visiting the events of an entity

Retained events are visited one by one, first those on disk, then those in memory
(`Root::visit_events`, `EntityData::visit_events`, `ReadState::visit_events`). Whoever visits them
(`Visitor`) is asked for room before an event is decoded, and may break off there or once it has
seen the event.

What visiting comes to is said once, for every visitor (`Visitor.Obeys.visitEvents`): where room
leads from a state in the middle of the visit to one that an event fits in, and visiting an event
of the view leads back, the whole visit does too. What the events of a view are is
`ReadState.Records`.
-/

namespace EveDB.Store

open Fallible

/-- **Who visits events**: how it looks at its surroundings, and what it does about an event. -/
structure Visitor (σ : Type) where
  /-- Fails when a storage failure has closed the database. -/
  ready : Fallible Error σ Unit
  /-- Fails when the visit is to stop. -/
  check : Fallible Error σ Unit
  /-- Answers what a read asks admission for. -/
  answer : Request → Fallible Error σ Unit
  /-- Reads from the files of a checkpoint. -/
  read {α : Type} : Reading α → Fallible Error σ α
  /-- Whether there is room for an event of that many bytes. -/
  admits : ℕ → Fallible Error σ Bool
  /-- Takes an event and the bytes it is accounted for, and says whether to go on. -/
  visit : Event → ℕ → Fallible Error σ Bool

/-- What is in between two versions, both included, in ascending order. -/
def within {α : Type} (map : BTreeMap α) (first last : ℕ) : List α :=
  (map.toList.filter fun (k, _) => first ≤ k ∧ k ≤ last).map Prod.snd

/-- The record of an event under its index entry, with the entity and the sequence its frame
names, before the event is decoded. -/
def Checkpoint.eventRecord (root : Checkpoint) (table : ℕ) (location : IndexValue) :
    Reading (ℕ × Bytes × ℕ) := do
  if ¬ root.manifest.historyGenerations.contains location.1 then
    Guarded.lift (corrupt "absent history generation")
  else do
    let (segment, offset) := splitEvent location.2
    let file : FileId := ⟨table, location.1, 6, segment⟩
    Guarded.ask (.scratch (← Guarded.lift (root.files.payloadSize file offset)))
    match ← Guarded.lift (root.files.frame file offset) with
    | none => Guarded.lift (corrupt "truncated indexed event")
    | some record =>
      if record.kind ≠ 3 then Guarded.lift (corrupt "invalid history frame kind")
      else do
        let (entityId, payload) ← unpack record.payload
        return (entityId, payload, record.lsn)

section Visiting

variable {σ : Type} (v : Visitor σ)

namespace Checkpoint

variable (root : Checkpoint)

/-- An event under its index entry, if there is room for it. -/
def eventAtIf (table : ℕ) (location : IndexValue) :
    Fallible Error σ (Option (ℕ × (Event × ℕ) × ℕ)) := do
  let (entityId, payload, lsn) ← v.read (root.eventRecord table location)
  let size ← Fallible.lift (recordBytes payload eventSize)
  if ← v.admits size then do
    v.answer (.decoded size)
    let event ← Fallible.lift (decodeEvent payload)
    return some (entityId, (event, size), lsn)
  else return none

/-- Visits the events of index entries; tells whether it got through. -/
def visitItems (table id : ℕ) : List (Result (Key × IndexValue)) → Fallible Error σ Bool
  | [] => return true
  | item :: items => do
    v.check
    let (key, location) ← Fallible.lift item
    match ← root.eventAtIf v table location with
    | none => return false
    | some (entityId, (event, size), lsn) =>
      if entityId ≠ id ∨ event.version ≠ key.2 ∨ event.transaction ≠ lsn ∨
          root.manifest.lsn < event.transaction then
        Fallible.lift (corrupt "history index references another event")
      else do
        if ← v.visit event size then visitItems table id items else return false

/-- **Visits the events of an entity on disk**, between two versions. -/
def visitEvents (table id first last : ℕ) : Fallible Error σ Bool :=
  root.visitItems v table id (root.files.scanIndex table 4 (id, first) (id, last))

end Checkpoint

/-- Visits events in memory. -/
def visitShared : List Event → Fallible Error σ Bool
  | [] => return true
  | event :: events => do
    v.check
    let size := eventBytes event
    if ← v.admits size then do
      v.answer (.decoded size)
      if ← v.visit event size then visitShared events else return false
    else return false

/-- Visits the events of an entity on disk, as far as its history reaches there. -/
def EntityData.visitDisk (data : EntityData) (first last : ℕ) : Fallible Error σ Bool :=
  match data.disk with
  | none => return true
  | some disk =>
    if first ≤ min last disk.through then
      disk.root.visitEvents v disk.table data.current.id first (min last disk.through)
    else return true

/-- **Visits the events of an entity**, first those on disk, then those in memory. -/
def EntityData.visitEvents (data : EntityData) (first last : ℕ) : Fallible Error σ Bool := do
  if ← data.visitDisk v first last then
    visitShared v (within data.committed first last ++
      data.events.filter fun event => first ≤ event.version ∧ event.version ≤ last)
  else return false

/-- **Visits the events of an entity of a view.** -/
def ReadState.visitEvents (view : ReadState) (table id first last : ℕ) :
    Fallible Error σ Bool := do
  v.ready
  let _ ← Fallible.lift (view.catalog.table table)
  match view.overlay[(table, id)]? with
  | some data => data.visitEvents v first last
  | none => view.root.visitEvents v table id first last

end Visiting

/-! ### The events of a view -/

/-- **An event a checkpoint holds of an entity**: what reading an index entry of it returns. -/
def Checkpoint.Records (root : Checkpoint) (table id : ℕ) (event : Event) : Prop :=
  ∃ first last key location,
    .ok (key, location) ∈ root.files.scanIndex table 4 (id, first) (id, last) ∧
      (root.eventAt table location).result = .ok (id, event, event.transaction) ∧
      event.version = key.2 ∧ event.transaction ≤ root.manifest.lsn

/-- **An event an entity has**, in one of the layers of its history. -/
def EntityData.Records (data : EntityData) (event : Event) : Prop :=
  (∃ k : ℕ, data.committed[k]? = some event) ∨ event ∈ data.events ∨
    ∃ disk, data.disk = some disk ∧ disk.root.Records disk.table data.current.id event

/-- **An event a view has of an entity.** -/
def ReadState.Records (view : ReadState) (table id : ℕ) (event : Event) : Prop :=
  match view.overlay[(table, id)]? with
  | some data => data.Records event
  | none => view.root.Records table id event

/-- **A view has this history of an entity**: it has at most one event for each version, the one
the history has. -/
def ReadState.Recorded (view : ReadState) (table id : ℕ) (history : ℕ → Event) : Prop :=
  ∀ event, view.Records table id event → event = history event.version

theorem mem_within {α : Type} {map : BTreeMap α} {first last : ℕ} {a : α}
    (h : a ∈ within map first last) : ∃ k : ℕ, map[k]? = some a := by
  obtain ⟨⟨k, a⟩, hmem, rfl⟩ := List.mem_map.mp h
  exact ⟨k, Std.ExtTreeMap.mem_toList_iff_getElem?_eq_some.mp (List.mem_of_mem_filter hmem)⟩

/-- What is decoded out of a record is the event under the index entry. -/
theorem Checkpoint.eventAt_of_record {root : Checkpoint} {table entityId lsn size : ℕ}
    {location : IndexValue} {payload : Bytes} {event : Event}
    (hrecord : (root.eventRecord table location).result = .ok (entityId, payload, lsn))
    (hsize : recordBytes payload eventSize = .ok size) (hevent : decodeEvent payload = .ok event) :
    (root.eventAt table location).result = .ok (entityId, event, lsn) := by
  unfold eventRecord at hrecord
  unfold eventAt
  split at hrecord
  · cases hrecord
  · next hpresent =>
    rw [if_neg hpresent]
    simp only [Guarded.result_bind] at hrecord ⊢
    obtain ⟨bytes, hbytes, hrecord⟩ := bind_eq_ok.mp hrecord
    obtain ⟨_, -, hrecord⟩ := bind_eq_ok.mp hrecord
    obtain ⟨frame, hframe, hrecord⟩ := bind_eq_ok.mp hrecord
    rw [hbytes, ok_bind, Guarded.result_ask, ok_bind, hframe, ok_bind]
    cases frame with
    | none => cases hrecord
    | some record =>
      dsimp only at hrecord ⊢
      split at hrecord
      · cases hrecord
      · next hkind =>
        rw [if_neg hkind]
        rw [Guarded.result_bind] at hrecord
        obtain ⟨unpacked, hunpack, hrecord⟩ := bind_eq_ok.mp hrecord
        cases hrecord
        simp only [Guarded.result_bind, hunpack, ok_bind, Guarded.result_lift, hsize,
          Guarded.result_ask, hevent]
        rfl

/-! ### What a visit comes to -/

/-- A state in the middle of a visit, or one in which it broke off. -/
def midway {σ : Type} (mid done : σ → Prop) : Bool → σ → Prop
  | true => mid
  | false => done

/-- **What a visitor of events with a property does**: from a state in the middle of a visit it
makes room, or is done; and with room for an event it takes it, and is in the middle or done. -/
structure Visitor.Obeys {σ : Type} (v : Visitor σ) (p : Event → Prop) (mid : σ → Prop)
    (room : ℕ → σ → Prop) (done : σ → Prop) : Prop where
  ready : Leads mid v.ready (fun _ => mid) fun _ => True
  check : Leads mid v.check (fun _ => mid) fun _ => True
  read : ∀ {α : Type} (reading : Reading α),
    Leads mid (v.read reading) (fun a s => reading.result = .ok a ∧ mid s) fun _ => True
  admits : ∀ size, Leads mid (v.admits size) (midway (room size) done) fun _ => True
  answer : ∀ request size, Leads (room size) (v.answer request) (fun _ => room size) fun _ => True
  visit : ∀ event size, p event →
    Leads (room size) (v.visit event size) (midway mid done) fun _ => True

section Visiting

variable {σ : Type} {v : Visitor σ} {p : Event → Prop} {mid : σ → Prop} {room : ℕ → σ → Prop}
  {done : σ → Prop}

/-- Steps that may break off lead on where they do not. -/
theorem bind_midway {x : Fallible Error σ Bool} {f : Bool → Fallible Error σ Bool}
    {start mid' : σ → Prop} (hx : Leads start x (midway mid' done) fun _ => True)
    (htrue : Leads mid' (f true) (midway mid done) fun _ => True) (hfalse : f false = pure false) :
    Leads start (x >>= f) (midway mid done) fun _ => True := by
  refine hx.bind fun go => ?_
  cases go with
  | true => exact htrue
  | false =>
    rw [hfalse]
    exact .pure fun _ h => h

/-- **An event under an index entry**: there is room for it, or the visit broke off. -/
theorem Visitor.Obeys.eventAtIf (h : v.Obeys p mid room done) (root : Checkpoint) (table : ℕ)
    (location : IndexValue) :
    Leads mid (root.eventAtIf v table location) (fun found s =>
      match found with
      | none => done s
      | some (entityId, (event, size), lsn) =>
        (root.eventAt table location).result = .ok (entityId, event, lsn) ∧ room size s)
      fun _ => True := by
  refine Leads.bind_of (h.read _) ?_
  rintro ⟨entityId, payload, lsn⟩ hrecord
  refine Leads.lift_bind (fun _ _ => trivial) fun size hsize => ?_
  refine (h.admits size).bind fun ok => ?_
  cases ok with
  | false => exact .pure fun _ hdone => hdone
  | true =>
    refine (h.answer _ size).bind fun _ => ?_
    refine Leads.lift_bind (fun _ _ => trivial) fun event hevent => ?_
    exact .pure fun _ hroom => ⟨Checkpoint.eventAt_of_record hrecord hsize hevent, hroom⟩

/-- Visiting index entries, whose events have the property when they can be read. -/
theorem Visitor.Obeys.visitItems (h : v.Obeys p mid room done) {root : Checkpoint} {table id : ℕ}
    {items : List (Result (Key × IndexValue))}
    (hitems : ∀ key location, .ok (key, location) ∈ items → ∀ event,
      (root.eventAt table location).result = .ok (id, event, event.transaction) →
      event.version = key.2 → event.transaction ≤ root.manifest.lsn → p event) :
    Leads mid (root.visitItems v table id items) (midway mid done) fun _ => True := by
  induction items with
  | nil => exact .pure fun _ hs => hs
  | cons item items ih =>
    have hrest := ih fun key location hmem => hitems key location (List.mem_cons_of_mem _ hmem)
    refine h.check.bind fun _ => ?_
    refine Leads.lift_bind (fun _ _ => trivial) fun entry hentry => ?_
    subst hentry
    refine (h.eventAtIf root table entry.2).bind fun found => ?_
    rcases found with _ | ⟨entityId, ⟨event, size⟩, lsn⟩
    · exact .pure fun _ hdone => hdone
    · refine Leads.of_and fun hevent => ?_
      dsimp only
      split
      · exact .lift (fun _ _ herror => by cases herror) fun _ _ => trivial
      · next hchecks =>
        -- the checks passed, so that the event is the one the entry stands for
        obtain ⟨hid, hversion, hlsn, hmanifest⟩ : entityId = id ∧ event.version = entry.1.2 ∧
            event.transaction = lsn ∧ event.transaction ≤ root.manifest.lsn := by
          simpa only [not_or, not_not, not_lt] using hchecks
        subst hid hlsn
        refine bind_midway (h.visit event size ?_) hrest rfl
        exact hitems entry.1 entry.2 (List.mem_cons_self ..) event hevent hversion hmanifest

/-- Visiting events in memory. -/
theorem Visitor.Obeys.visitShared (h : v.Obeys p mid room done) {events : List Event}
    (hevents : ∀ event ∈ events, p event) :
    Leads mid (visitShared v events) (midway mid done) fun _ => True := by
  induction events with
  | nil => exact .pure fun _ hs => hs
  | cons event events ih =>
    obtain ⟨hevent, hevents⟩ := List.forall_mem_cons.mp hevents
    refine h.check.bind fun _ => ?_
    refine bind_midway (h.admits _) ?_ rfl
    refine (h.answer _ _).bind fun _ => ?_
    exact bind_midway (h.visit event _ hevent) (ih hevents) rfl

/-- Visiting the events of an entity on disk. -/
theorem Visitor.Obeys.visitCheckpoint (h : v.Obeys p mid room done) {root : Checkpoint}
    {table id : ℕ} (hp : ∀ event, root.Records table id event → p event) (first last : ℕ) :
    Leads mid (root.visitEvents v table id first last) (midway mid done) fun _ => True :=
  h.visitItems fun key location hmem event hread hversion hlsn =>
    hp event ⟨first, last, key, location, hmem, hread, hversion, hlsn⟩

/-- Visiting the events of an entity. -/
theorem Visitor.Obeys.visitEntity (h : v.Obeys p mid room done) {data : EntityData}
    (hp : ∀ event, data.Records event → p event) (first last : ℕ) :
    Leads mid (data.visitEvents v first last) (midway mid done) fun _ => True := by
  have hdisk : Leads mid (data.visitDisk v first last) (midway mid done) fun _ => True := by
    unfold EntityData.visitDisk
    cases hdisk : data.disk with
    | none => exact .pure fun _ hs => hs
    | some disk =>
      dsimp only
      split
      · exact h.visitCheckpoint (fun event hevent =>
          hp event (Or.inr (Or.inr ⟨disk, hdisk, hevent⟩))) _ _
      · exact .pure fun _ hs => hs
  refine bind_midway hdisk (h.visitShared ?_) rfl
  intro event hmem
  rcases List.mem_append.mp hmem with hmem | hmem
  · exact hp event (Or.inl (mem_within hmem))
  · exact hp event (Or.inr (Or.inl (List.mem_of_mem_filter hmem)))

/-- **Visiting the events of an entity of a view.** -/
theorem Visitor.Obeys.visitEvents (h : v.Obeys p mid room done) {view : ReadState} {table id : ℕ}
    (hp : ∀ event, view.Records table id event → p event) (first last : ℕ) :
    Leads mid (view.visitEvents v table id first last) (midway mid done) fun _ => True := by
  refine h.ready.bind fun _ => ?_
  refine Leads.lift_bind (fun _ _ => trivial) fun _ _ => ?_
  unfold ReadState.Records at hp
  cases hoverlay : view.overlay[(table, id)]? with
  | some data =>
    rw [hoverlay] at hp
    exact h.visitEntity hp first last
  | none =>
    rw [hoverlay] at hp
    exact h.visitCheckpoint hp first last

end Visiting

end EveDB.Store
