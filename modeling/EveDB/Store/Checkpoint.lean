import EveDB.Store.Data
import EveDB.Store.Resources
import EveDB.Manifest
import EveDB.Frame

/-!
# Reading a checkpoint

How entities and their histories are read out of the files of a checkpoint manifest
(`snapshot.rs`, `storage/heap.rs`). What the pages of the files hold is given (`Files`): the
entries of the indexes, the records of the heap pages, and the frames of the history segments.
Everything above them is read as the engine reads it, with the identity checks of every record
and the admission of every buffer.

A locator carries a generation slot in its top byte (`splitLocator`); a reference to an event
carries a segment (`splitEvent`). A record is read whole from one page or put together from a
chain of pages (`Files.readBuffer`), and a history frame may be run-length encoded (`unpack`).
-/

namespace EveDB.Store

/-- A page of a heap file. -/
structure HeapPage where
  lsn : ℕ
  records : List (Option Bytes)

/-- **What reading the files of a manifest returns**, or fails with. -/
structure Files where
  /-- The entry of a table's index under a key. -/
  lookupIndex : (table kind : ℕ) → Key → Result (Option IndexValue)
  /-- The last entry at or below a key. -/
  floorIndex : (table kind : ℕ) → Key → Result (Option (Key × IndexValue))
  /-- The entries between two keys; the cursor may break off. -/
  scanIndex : (table kind : ℕ) → Key → Key → List (Result (Key × IndexValue))
  /-- A heap page. -/
  page : FileId → ℕ → Result HeapPage
  /-- The payload size a history frame declares, before it is read. -/
  payloadSize : FileId → ℕ → Result ℕ
  /-- A history frame. -/
  frame : FileId → ℕ → Result (Option Frame)

/-- A manifest with its files. -/
structure Checkpoint where
  manifest : Root
  files : Files

/-- The files of a manifest that references none. -/
def Files.empty : Files where
  lookupIndex _ _ _ := .ok none
  floorIndex _ _ _ := .ok none
  scanIndex _ _ _ _ := []
  page _ _ := .error (.io "No such file or directory (os error 2)")
  payloadSize _ _ := .error (.io "No such file or directory (os error 2)")
  frame _ _ := .error (.io "No such file or directory (os error 2)")

/-! ### Locators -/

/-- The generation slot and the in-file location of a locator. -/
def splitLocator (locator : ℕ) : ℕ × ℕ := (locator / 2 ^ 56 % 2 ^ 8, locator % 2 ^ 56)

/-- The segment and the offset of an event. -/
def splitEvent (location : ℕ) : ℕ × ℕ := (location / 2 ^ 48, location % 2 ^ 48)

/-- The generation slot the two locators of a primary entry share. -/
def entitySlot (value : IndexValue) : Result ℕ :=
  if (splitLocator value.1).1 ≠ (splitLocator value.2).1 then
    corrupt "entity state and base disagree on their generation"
  else .ok (splitLocator value.1).1

/-! ### Records -/

/-- The largest record that fits a page, behind its header and a slot. -/
def maxRecordSize : ℕ := pageSize - 40 - 4

namespace Files

variable (files : Files)

/-- A heap page, with its sequence checked. -/
def readPage (file : FileId) (id lsn : ℕ) : Result HeapPage := do
  let page ← files.page file id
  if page.lsn ≠ lsn then corrupt "misdirected heap page" else return page

/-- The remaining `n` fragments of an overflow chain, behind what has been read of it. -/
def readChain (file : FileId) (pageId lsn total : ℕ) (header : Bytes) :
    (n index : ℕ) → Bytes → Result Bytes
  | 0, _, bytes => .ok bytes
  | n + 1, index, bytes => do
    let page ← files.readPage file (pageId + index) lsn
    match page.records.head?.join with
    | none => corrupt "missing overflow record"
    | some chunk =>
      if chunk.length < 13 ∨ chunk.head? ≠ some 1 ∨ (chunk.drop 1).take 4 ≠ header.take 4 ∨
          (chunk.drop 9).take 4 ≠ header.drop 8 ∨
          LittleEndian.decode ((chunk.drop 5).take 4) ≠ index then
        corrupt "invalid overflow fragment"
      else if total < bytes.length + (chunk.length - 13) then
        corrupt "overflow chain is too long"
      else readChain file pageId lsn total header n (index + 1) (bytes ++ chunk.drop 13)

/-- The bytes of a stored record. -/
def readBuffer (file : FileId) (location lsn : ℕ) : Reading Bytes := do
  let pageId := location / 2 ^ 16
  let slot := location % 2 ^ 16
  let page ← Guarded.lift (files.readPage file pageId lsn)
  match (page.records[slot]?).join with
  | none => Guarded.lift (corrupt "absent heap slot")
  | some record =>
    if record.head? = some 0 then do
      Guarded.ask (.scratch (record.length - 1))
      return record.drop 1
    else if record.head? = some 1 ∧ 13 ≤ record.length then do
      let header := (record.drop 1).take 12
      let total := LittleEndian.decode (header.take 4)
      let count := LittleEndian.decode (header.drop 8)
      -- the fragments of a chain are as long as a page allows, all but the last
      if total < maxRecordSize ∨ maxRecord < total ∨
          count ≠ (total + (maxRecordSize - 13) - 1) / (maxRecordSize - 13) ∨ slot ≠ 0 then
        Guarded.lift (corrupt "invalid overflow chain")
      else do
        Guarded.ask (.scratch total)
        let bytes ← Guarded.lift (files.readChain file pageId lsn total header count 0 [])
        if bytes.length ≠ total then Guarded.lift (corrupt "truncated overflow chain")
        else return bytes
    else Guarded.lift (corrupt "unknown heap record kind")

end Files

/-- Expands run lengths: pairs of a count and a byte, up to `size` bytes. -/
def expandRuns (size : ℕ) : Bytes → Bytes → Result Bytes
  | result, [] => .ok result
  | _, [_] => corrupt "invalid RLE payload"
  | result, count :: value :: rest =>
    if count = 0 ∨ size < result.length + count.toNat then corrupt "RLE length overflow"
    else expandRuns size (result ++ List.replicate count.toNat value) rest

/-- The entity and the record of a history frame. -/
def unpack (bytes : Bytes) : Reading (ℕ × Bytes) := do
  if bytes.length < 13 then Guarded.lift (corrupt "short history record")
  else do
    let id := LittleEndian.decode (bytes.take 8)
    let tag := (bytes.drop 8).head?
    let size := LittleEndian.decode ((bytes.drop 9).take 4)
    let data := bytes.drop 13
    if maxRecord < size then Guarded.lift (corrupt "oversized history record")
    else if tag = some 0 ∧ data.length ≠ size then
      Guarded.lift (corrupt "history length mismatch")
    else do
      Guarded.ask (.scratch size)
      let result ←
        if tag = some 0 then pure data
        -- an odd remainder is found before any run is expanded
        else if tag = some 1 then
          if data.length % 2 ≠ 0 then Guarded.lift (corrupt "invalid RLE payload")
          else Guarded.lift (expandRuns size [] data)
        else Guarded.lift (corrupt "unsupported history compression")
      if result.length ≠ size then Guarded.lift (corrupt "history length mismatch")
      else return (id, result)

/-! ### Entities and histories -/

namespace Checkpoint

variable (root : Checkpoint)

/-- The file and the page sequence a locator's slot stands for. -/
def slotted (table kind slot segment : ℕ) : Result (FileId × ℕ) :=
  match root.manifest.generations[slot]? with
  | some entry => .ok (⟨table, entry.generation, kind, segment⟩, entry.lsn)
  | none => corrupt "locator names an absent generation"

/-- The primary entry of an entity, with its generation slot checked. -/
def locate (table id : ℕ) : Result (Option IndexValue) :=
  if ¬ root.manifest.catalog.contains table then .ok none
  else do
    match ← root.files.lookupIndex table 3 (id, 0) with
    | none => return none
    | some value => do
      let _ ← entitySlot value
      return some value

/-- A stored state, checked to belong to `id`. `charged` loads are put on the account of a
transaction. -/
def state (charged : Bool) (table kind locator id : ℕ) : Reading Entity := do
  let (slot, location) := splitLocator locator
  let (file, lsn) ← Guarded.lift (root.slotted table kind slot 0)
  let raw ← root.files.readBuffer file location lsn
  let size ← Guarded.lift (recordBytes raw entitySize)
  Guarded.ask (.decoded size)
  if charged then Guarded.ask (.charge size)
  let entity ← Guarded.lift (decodeEntity raw)
  if entity.id ≠ id then Guarded.lift (corrupt "index references another entity")
  else return entity

/-- The current state of an entity. -/
def current (table id : ℕ) : Reading (Option Entity) := do
  match ← Guarded.lift (root.locate table id) with
  | none => return none
  | some value => return some (← root.state false table 0 value.1 id)

/-- A snapshot under its index entry. -/
def historyState (table : ℕ) (location : IndexValue) (id : ℕ) : Reading Entity := do
  match root.manifest.historyGenerations[location.1]? with
  | none => Guarded.lift (corrupt "absent snapshot generation")
  | some lsn => do
    let raw ← root.files.readBuffer ⟨table, location.1, 2, 0⟩ location.2 lsn
    let size ← Guarded.lift (recordBytes raw entitySize)
    Guarded.ask (.decoded size)
    let entity ← Guarded.lift (decodeEntity raw)
    if entity.id ≠ id then Guarded.lift (corrupt "snapshot references another entity")
    else return entity

/-- An event under its index entry, with the entity and the sequence its frame names. -/
def eventAt (table : ℕ) (location : IndexValue) : Reading (ℕ × Event × ℕ) := do
  if ¬ root.manifest.historyGenerations.contains location.1 then
    Guarded.lift (corrupt "absent history generation")
  else do
    let (segment, offset) := splitEvent location.2
    let file : FileId := ⟨table, location.1, 6, segment⟩
    Guarded.ask (.scratch (← Guarded.lift (root.files.payloadSize file offset)))
    match ← Guarded.lift (root.files.frame file offset) with
    | none => Guarded.lift (corrupt "truncated indexed event")
    | some record =>
      if record.kind ≠ 3 then Guarded.lift (corrupt "invalid history frame kind")
      else do
        let (entityId, payload) ← unpack record.payload
        Guarded.ask (.decoded (← Guarded.lift (recordBytes payload eventSize)))
        return (entityId, ← Guarded.lift (decodeEvent payload), record.lsn)

/-- Replays the indexed events of an entity. -/
def replayEvents (table id : ℕ) (definition : Table) :
    Entity → List (Result (Key × IndexValue)) → Reading Entity
  | state, [] => return state
  | state, entry :: entries => do
    let (key, location) ← Guarded.lift entry
    let (entityId, event, lsn) ← root.eventAt table location
    if entityId ≠ id ∨ event.version ≠ key.2 ∨ event.transaction ≠ lsn ∨
        root.manifest.lsn < event.transaction then
      Guarded.lift (corrupt "invalid indexed event identity")
    else do
      let state ← Guarded.lift (applyEvent state event definition)
      replayEvents table id definition state entries

/-- Takes a state on to a later version, from a snapshot when there is one on the way. -/
def advance (table id : ℕ) (state : Entity) (version : ℕ) (snapshots : Bool) :
    Reading Entity := do
  match root.manifest.catalog[table]? with
  | none => Guarded.lift (.error (.notFound ("table " ++ toString table)))
  | some definition => do
    let state ←
      if snapshots then do
        match ← Guarded.lift (root.files.floorIndex table 5 (id, version)) with
        | some (key, location) =>
          if key.1 = id ∧ state.version ≤ key.2 then do
            let snapshot ← root.historyState table location id
            if snapshot.version ≠ key.2 then Guarded.lift (corrupt "invalid snapshot identity")
            else pure snapshot
          else pure state
        | none => pure state
      else pure state
    if state.version = version then return state
    else do
      let state ← root.replayEvents table id definition state
        (root.files.scanIndex table 4 (id, state.version + 1) (id, version))
      if state.version ≠ version then Guarded.lift (corrupt "gap in indexed history")
      else return state

end Checkpoint

end EveDB.Store
