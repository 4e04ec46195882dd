import EveDB.Store.Checkpoint
import EveDB.Model.Catalog

/-!
# Entities with their histories

What a transaction stages and a view holds of an entity (`EntityData`): its current state, the
base its retained history starts from, and the history in between, in three layers. Events the
checkpoint holds stay on disk, behind a reference to it; events committed since are shared by
the views; events of the running transaction are its own until it is published
(`EntityData.sealEvents`).

`EntityData.at` reconstructs a version out of these layers, and `EntityData.retain` moves the
base on to one. `ReadState.loadCharged` is how an entity is read out of a view.
-/

namespace EveDB.Store

/-- The history a checkpoint holds of an entity. -/
structure DiskHistory where
  root : Checkpoint
  table : ℕ
  /-- The last version it holds. -/
  through : ℕ

/-- **An entity with its history.** -/
structure EntityData where
  current : Entity
  /-- The state the retained history starts from. -/
  base : Entity
  /-- The events of the running transaction. -/
  events : List Event
  /-- Events committed since the checkpoint, by version. -/
  committed : BTreeMap Event
  /-- Acceleration snapshots taken since the checkpoint, by version. -/
  snapshots : BTreeMap Entity
  disk : Option DiskHistory

/-! ### Ordered maps by version -/

section Versions

variable {α : Type}

/-- Drops what is below a version. -/
def retainFrom (map : BTreeMap α) (first : ℕ) : BTreeMap α := map.filter fun k _ => first ≤ k

/-- Drops what is not above a version. -/
def retainAbove (map : BTreeMap α) (version : ℕ) : BTreeMap α :=
  match checkedAdd version 1 with
  | some first => retainFrom map first
  | none => ∅

/-- What lies above one version and not above another, in ascending order. -/
def range (map : BTreeMap α) (lower upper : ℕ) : List α :=
  (map.toList.filter fun (k, _) => lower < k ∧ k ≤ upper).map Prod.snd

/-- The last entry at or below a version. -/
def floor (map : BTreeMap α) (version : ℕ) : Option α :=
  ((map.toList.filter fun (k, _) => k ≤ version).getLast?).map Prod.snd

/-- What is left of a map from a version on. -/
theorem getElem?_retainFrom (map : BTreeMap α) (first k : ℕ) :
    (retainFrom map first)[k]? = if first ≤ k then map[k]? else none := by
  rw [retainFrom, Std.ExtTreeMap.getElem?_filter']
  cases map[k]? with
  | none => rw [ite_self, Option.filter_none]
  | some a => simp [Option.filter]

/-- What is left of it above a version. -/
theorem getElem?_retainAbove {map : BTreeMap α} {version k : ℕ} {a : α}
    (h : (retainAbove map version)[k]? = some a) : version < k ∧ map[k]? = some a := by
  unfold retainAbove at h
  split at h
  · next hfirst =>
    obtain ⟨rfl, -⟩ := checkedAdd_eq_some.mp hfirst
    rw [getElem?_retainFrom] at h
    split at h
    · next hle => exact ⟨hle, h⟩
    · cases h
  · rw [Std.ExtTreeMap.getElem?_empty] at h
    cases h

end Versions

/-! ### Reconstruction -/

/-- Applies events one after another. -/
def applyEvents (table : Table) : Entity → List Event → Result Entity
  | state, [] => .ok state
  | state, event :: events => do
    let state ← applyEvent state event table
    applyEvents table state events

/-- Applies the events of a transaction that lie ahead of the state. -/
def applyAhead (table : Table) : Entity → List Event → Result Entity
  | state, [] => .ok state
  | state, event :: events => do
    let state ← if state.version < event.version then applyEvent state event table else .ok state
    applyAhead table state events

namespace EntityData

/-- The state a reconstruction starts from. -/
def start (data : EntityData) (version : ℕ) (useSnapshots : Bool) : Entity :=
  match useSnapshots, floor data.snapshots version with
  | true, some snapshot => if data.base.version ≤ snapshot.version then snapshot else data.base
  | _, _ => data.base

/-- Takes a state as far as the checkpoint's history goes. -/
def fromDisk (data : EntityData) (state : Entity) (version : ℕ) (useSnapshots : Bool) :
    Reading Entity :=
  match data.disk with
  | none => return state
  | some disk =>
    if state.version < min version disk.through then
      if useSnapshots ∧ disk.through ≤ version then do
        match ← disk.root.current disk.table data.current.id with
        | some state => return state
        | none => Guarded.lift (corrupt "history source disappeared")
      else
        disk.root.advance disk.table data.current.id state (min version disk.through) useSnapshots
    else return state

/-- **Reconstructs a version.** -/
def «at» (data : EntityData) (table : Table) (version : ℕ) (useSnapshots : Bool) :
    Reading Entity :=
  if version < data.base.version ∨ data.current.version < version then
    Guarded.lift (.error (.versionUnavailable version data.base.version data.current.version))
  else if useSnapshots ∧ version = data.current.version then return data.current
  else do
    let state ← data.fromDisk (data.start version useSnapshots) version useSnapshots
    let state ← Guarded.lift (applyEvents table state (range data.committed state.version version))
    let state ← Guarded.lift
      (applyAhead table state (data.events.filter fun event => event.version ≤ version))
    if state.version ≠ version then Guarded.lift (corrupt "gap in entity history")
    else return state

/-- Keeps the last `count` events, and the state before them as the base. -/
def retain (data : EntityData) (table : Table) (count : ℕ) : Reading EntityData :=
  let version := data.current.version - count
  if version ≤ data.base.version then return data
  else do
    let base ← data.at table version true
    return { data with
      base
      events := data.events.filter fun event => version < event.version
      committed := retainAbove data.committed version
      snapshots := retainFrom data.snapshots version }

/-- Shares the events of the running transaction. -/
def sealEvents (data : EntityData) : EntityData :=
  { data with
    events := []
    committed := data.committed.insertMany (data.events.map fun event => (event.version, event)) }

end EntityData

/-! ### Views -/

/-- **A committed view**: a checkpoint, and what has been committed since. -/
structure ReadState where
  root : Checkpoint
  catalog : Catalog
  overlay : SortedMap (ℕ × ℕ) EntityData
  lsn : ℕ

/-- An entity of a checkpoint. -/
def Checkpoint.entity (root : Checkpoint) (charged : Bool) (table id : ℕ) :
    Reading (Option EntityData) := do
  match ← Guarded.lift (root.locate table id) with
  | none => return none
  | some value => do
    let current ← root.state charged table 0 value.1 id
    let base ← root.state charged table 1 value.2 id
    if current.version < base.version then
      Guarded.lift (corrupt "invalid current/base reference")
    else
      return some {
        current, base, events := [], committed := ∅, snapshots := ∅,
        disk := some { root, table, through := current.version } }

namespace ReadState

variable (view : ReadState)

/-- An entity of a view, put on the account of the transaction that loads it. -/
def loadCharged (charged : Bool) (table id : ℕ) : Reading (Option EntityData) := do
  let _ ← Guarded.lift (view.catalog.table table)
  match view.overlay[(table, id)]? with
  | some data => do
    let size := entityBytes data.current + entityBytes data.base
    Guarded.ask (.memory size)
    if charged then Guarded.ask (.charge size)
    return some data
  | none => view.root.entity charged table id

/-- An entity of a view. -/
def load (table id : ℕ) : Reading (Option EntityData) := view.loadCharged false table id

/-- The live current state of an entity. -/
def get (table id : ℕ) : Reading (Option Entity) := do
  let _ ← Guarded.lift (view.catalog.table table)
  let current ←
    match view.overlay[(table, id)]? with
    | some data => do
      Guarded.ask (.decoded (entityBytes data.current))
      pure (some data.current)
    | none => view.root.current table id
  return current.filter fun entity => ¬ entity.deleted

/-- A retained version of a checkpointed entity. -/
def diskAt (table id version : ℕ) (snapshots : Bool) : Reading Entity := do
  match ← Guarded.lift (view.root.locate table id) with
  | none => Guarded.lift (.error (.notFound ("entity " ++ toString id)))
  | some value => do
    let current ← view.root.state false table 0 value.1 id
    let state ← view.root.state false table 1 value.2 id
    if current.version < state.version then Guarded.lift (corrupt "invalid state reference")
    else if version < state.version ∨ current.version < version then
      Guarded.lift (.error (.versionUnavailable version state.version current.version))
    else if snapshots ∧ version = current.version then return current
    else view.root.advance table id state version snapshots

/-- Reconstructs a retained version, from a snapshot when one helps. -/
def getAtVersion (table id version : ℕ) : Reading Entity := do
  let definition ← Guarded.lift (view.catalog.table table)
  match view.overlay[(table, id)]? with
  | some data => data.at definition version true
  | none => view.diskAt table id version true

end ReadState

/-! ### What reads return -/

/-- **What moving the base of a history returns.** -/
theorem EntityData.retain_result {data data' : EntityData} {table : Table} {count : ℕ}
    (h : (data.retain table count).result = .ok data') :
    data' = data ∨ ∃ version base, version = data.current.version - count ∧
      data.base.version < version ∧ (data.at table version true).result = .ok base ∧
      data' =
        { data with
          base
          events := data.events.filter fun event => version < event.version
          committed := retainAbove data.committed version
          snapshots := retainFrom data.snapshots version } := by
  unfold EntityData.retain at h
  dsimp only at h
  split at h
  · exact Or.inl (Except.ok.inj h).symm
  · next hlt =>
    rw [Guarded.result_bind] at h
    obtain ⟨base, hbase, heq⟩ := bind_eq_ok.mp h
    exact Or.inr ⟨_, base, rfl, Nat.lt_of_not_le hlt, hbase, (Except.ok.inj heq).symm⟩

/-- **What reading an entity of a checkpoint returns.** -/
theorem Checkpoint.entity_result {root : Checkpoint} {charged : Bool} {table id : ℕ}
    {data : EntityData} (h : (root.entity charged table id).result = .ok (some data)) :
    ∃ value, root.locate table id = .ok (some value) ∧
      (root.state charged table 0 value.1 id).result = .ok data.current ∧
      (root.state charged table 1 value.2 id).result = .ok data.base ∧
      data.base.version ≤ data.current.version ∧ data.events = [] ∧ data.committed = ∅ ∧
      data.snapshots = ∅ ∧ data.disk = some ⟨root, table, data.current.version⟩ := by
  unfold Checkpoint.entity at h
  rw [Guarded.result_bind] at h
  obtain ⟨value, hvalue, h⟩ := bind_eq_ok.mp h
  cases value with
  | none => cases h
  | some value =>
    rw [Guarded.result_bind] at h
    obtain ⟨current, hcurrent, h⟩ := bind_eq_ok.mp h
    rw [Guarded.result_bind] at h
    obtain ⟨base, hbase, h⟩ := bind_eq_ok.mp h
    split at h
    · cases h
    · next hle =>
      cases h
      exact ⟨value, hvalue, hcurrent, hbase, Nat.le_of_not_lt hle, rfl, rfl, rfl, rfl⟩

/-- **What loading an entity of a view returns.** -/
theorem ReadState.loadCharged_result {view : ReadState} {charged : Bool} {table id : ℕ}
    {data : EntityData} (h : (view.loadCharged charged table id).result = .ok (some data)) :
    (∃ t, view.catalog.table table = .ok t) ∧
      (view.overlay[(table, id)]? = some data ∨
        (view.overlay[(table, id)]? = none ∧
          (view.root.entity charged table id).result = .ok (some data))) := by
  unfold ReadState.loadCharged at h
  rw [Guarded.result_bind] at h
  obtain ⟨t, ht, h⟩ := bind_eq_ok.mp h
  refine ⟨⟨t, ht⟩, ?_⟩
  cases hoverlay : view.overlay[(table, id)]? with
  | none =>
    rw [hoverlay] at h
    exact Or.inr ⟨rfl, h⟩
  | some found =>
    rw [hoverlay] at h
    refine Or.inl ?_
    rw [Guarded.result_bind] at h
    obtain ⟨_, -, h⟩ := bind_eq_ok.mp h
    split at h
    · rw [Guarded.result_bind] at h
      obtain ⟨_, -, h⟩ := bind_eq_ok.mp h
      exact Except.ok.inj h
    · exact Except.ok.inj h

end EveDB.Store
