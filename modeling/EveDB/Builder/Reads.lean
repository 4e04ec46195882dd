import EveDB.Builder.Exact
import EveDB.Store.States

/-!
# What is read across a build

A build puts the records of some entities into files of its own and leaves those of all others where
they are, under a slot with another number. Either way an entity is read as before: from the same
bytes (`Checkpoint.state_congr`), or from bytes that are decoded to what was encoded in them
(`Disk.Record.state`). So the new manifest has what the view had it was made of
(`Store.CheckpointJob.Built.states`).
-/

namespace EveDB

open Std Store Index Indexes

/-! ### Records -/

namespace Store.Files

variable {files files' : Files} {file file' : FileId}

theorem readPage_congr (h : ∀ id, files.page file id = files'.page file' id) (id lsn : ℕ) :
    files.readPage file id lsn = files'.readPage file' id lsn := by
  rw [readPage, readPage, h]

theorem readChain_congr (h : ∀ id, files.page file id = files'.page file' id)
    (pageId lsn total : ℕ) (header : Bytes) (n : ℕ) (index : ℕ) (bytes : Bytes) :
    files.readChain file pageId lsn total header n index bytes =
      files'.readChain file' pageId lsn total header n index bytes := by
  induction n generalizing index bytes with
  | zero => rfl
  | succ n ih =>
    rw [readChain, readChain, readPage_congr h]
    simp only [ih]

/-- **A record is read from the pages of its file** alone. -/
theorem readBuffer_congr (h : ∀ id, files.page file id = files'.page file' id) (location lsn : ℕ) :
    files.readBuffer file location lsn = files'.readBuffer file' location lsn := by
  rw [readBuffer, readBuffer, readPage_congr h]
  simp only [readChain_congr h]

end Store.Files

/-- **A stored record is read back.** -/
theorem Disk.Record.readBuffer {disk : Disk} {file : FileId} {lsn location : ℕ} {bytes : Bytes}
    (h : disk.Record file lsn location bytes) (hlsn : lsn < 2 ^ 64) (root : Root) :
    ((Checkpoint.ofDisk disk root).files.readBuffer file location lsn).result = .ok bytes := by
  obtain ⟨contents, hcontents, pages, hsealed, rfl, hstored⟩ := h
  have hlsn' : (UInt64.ofNat lsn).toNat = lsn := UInt64.toNat_ofNat_of_lt hlsn
  have hpages (id : ℕ) : (Checkpoint.ofDisk disk root).files.page file id =
      (Files.empty.withHeap file (joinedPages pages)).page file id := by
    have hwith : (Files.empty.withHeap file (joinedPages pages)).page file =
        heapPage (joinedPages pages) := Function.update_self file _ _
    rw [hwith]
    change disk.read file _ = _
    rw [Disk.read, hcontents]
  rw [Files.readBuffer_congr hpages, ← hlsn', (hsealed.readBuffer _ _ hstored).1]

/-- It is short enough to be decoded. -/
theorem Disk.Record.length_le {disk : Disk} {file : FileId} {lsn location : ℕ} {bytes : Bytes}
    (h : disk.Record file lsn location bytes) : bytes.length ≤ maxRecord := by
  obtain ⟨contents, -, pages, -, -, hstored⟩ := h
  rcases hstored with ⟨hshort, -⟩ | ⟨-, hle, -⟩
  · exact hshort.le.trans (by decide)
  · exact hle

/-! ### States -/

namespace Store.Checkpoint

variable {root root' : Checkpoint} {table kind locator locator' id : ℕ}

/-- **A state is read alike** from two manifests that have it in the same file. -/
theorem state_congr {g : GenerationInfo}
    (hslot : root.manifest.generations[(splitLocator locator).1]? = some g)
    (hslot' : root'.manifest.generations[(splitLocator locator').1]? = some g)
    (hlocation : (splitLocator locator).2 = (splitLocator locator').2)
    (hpages : ∀ page, root.files.page ⟨table, g.generation, kind, 0⟩ page =
      root'.files.page ⟨table, g.generation, kind, 0⟩ page) (charged : Bool) :
    root.state charged table kind locator id = root'.state charged table kind locator' id := by
  unfold Checkpoint.state
  dsimp only
  rw [slotted, slotted, hslot, hslot']
  dsimp only
  rw [Guarded.lift_ok_bind, Guarded.lift_ok_bind, hlocation, Files.readBuffer_congr hpages]

end Store.Checkpoint

/-- **A state is read back** from the record it has been stored in. -/
theorem Disk.Record.state {disk : Disk} {root : Root} {table kind locator slot location id : ℕ}
    {g : GenerationInfo} {e : Entity}
    (h : disk.Record ⟨table, g.generation, kind, 0⟩ g.lsn location (encodeEntity e))
    (hlsn : g.lsn < 2 ^ 64) (hlocator : splitLocator locator = (slot, location))
    (hslot : root.generations[slot]? = some g) (he : e.State id) (charged : Bool) :
    ((Checkpoint.ofDisk disk root).state charged table kind locator id).result = .ok e := by
  have hdecoded := he.decode_encode
  have hscan := scan_of_decodeEntity (h.length_le.trans_lt (by decide)) hdecoded
  have hsame : (Checkpoint.ofDisk disk root).manifest.generations[slot]? = some g := hslot
  unfold Checkpoint.state
  rw [hlocator]
  dsimp only
  rw [Checkpoint.slotted, hsame]
  dsimp only
  rw [Guarded.lift_ok_bind]
  dsimp only
  rw [Guarded.result_bind, h.readBuffer hlsn, ok_bind, hscan, Guarded.lift_ok_bind, hdecoded]
  have hrest : (Guarded.lift (.ok e) >>= fun entity =>
      if entity.id ≠ id then Guarded.lift (corrupt "index references another entity")
      else return entity : Reading Entity).result = .ok e := by
    rw [Guarded.lift_ok_bind, if_neg (not_not.mpr he.id_eq)]
    rfl
  split
  · exact hrest
  · exact hrest

/-! ### Entities -/

namespace Store

/-- What is had of an entity: its current state and its base. -/
def EntityData.states (data : EntityData) : Entity × Entity := (data.current, data.base)

/-- **What a checkpoint has** of an entity. -/
def Checkpoint.states (root : Checkpoint) (key : ℕ × ℕ) : Result (Option (Entity × Entity)) :=
  Option.map EntityData.states <$> (root.entity false key.1 key.2).result

/-- **What a view has** of an entity: what there is in memory, or else in its checkpoint. -/
def ReadState.states (view : ReadState) (key : ℕ × ℕ) : Result (Option (Entity × Entity)) :=
  match view.overlay[key]? with
  | some data => .ok (some data.states)
  | none => view.root.states key

theorem Checkpoint.states_none {root : Checkpoint} {key : ℕ × ℕ}
    (hlocate : root.locate key.1 key.2 = .ok none) : root.states key = .ok none := by
  rw [Checkpoint.states, Checkpoint.entity, hlocate]
  rfl

theorem Checkpoint.states_some {root : Checkpoint} {key : ℕ × ℕ} {value : IndexValue}
    (hlocate : root.locate key.1 key.2 = .ok (some value)) : root.states key = (do
      let current ← (root.state false key.1 0 value.1 key.2).result
      let base ← (root.state false key.1 1 value.2 key.2).result
      if current.version < base.version then corrupt "invalid current/base reference"
      else return some (current, base)) := by
  rw [Checkpoint.states, Checkpoint.entity, hlocate, Guarded.lift_ok_bind]
  dsimp only
  rw [Guarded.result_bind]
  rcases (root.state false key.1 0 value.1 key.2).result with _ | current
  · rfl
  rw [ok_bind, ok_bind, Guarded.result_bind]
  rcases (root.state false key.1 1 value.2 key.2).result with _ | base
  · rfl
  rw [ok_bind, ok_bind]
  split
  · rfl
  · rfl

/-- **An entity that a view loads** is what it has. -/
theorem ReadState.states_of_load {view : ReadState} {table id : ℕ} {data : EntityData}
    (hload : (view.load table id).result = .ok (some data)) :
    view.states (table, id) = .ok (some data.states) := by
  obtain ⟨-, hoverlay | ⟨hnone, hdisk⟩⟩ := loadCharged_result hload
  · rw [states, hoverlay]
  · rw [states, hnone]
    change Option.map EntityData.states <$> (view.root.entity false table id).result = _
    rw [hdisk]
    rfl

end Store

/-! ### Across directories -/

section Across

variable {held disk disk' : Disk} {root : Root} {table : ℕ} {entries : List Entry}

/-- An entity that is not listed is not had. -/
theorem Listed.states_none (h : Listed disk root table primaryIndex entries) {id : ℕ}
    (hid : id ∉ idsOf entries) : (Checkpoint.ofDisk disk root).states (table, id) = .ok none := by
  refine Checkpoint.states_none ?_
  by_cases htable : table ∈ root.catalog
  · refine (h.locate htable id).trans ?_
    cases hfound : SortedList.lookup order (toLex (id, 0)) entries with
    | none => rfl
    | some e =>
      obtain ⟨he, hkey⟩ := h.routed.ascending.lookup_eq_some.mp hfound
      exact absurd ⟨e, he, congrArg Prod.fst (toLex_inj.mp hkey)⟩ hid
  · exact if_pos (mt ExtTreeMap.contains_iff_mem.mp htable)

/-- One that is listed is found. -/
theorem Listed.locate_mem (h : Listed disk root table primaryIndex entries)
    (habsent : table ∉ root.catalog → entries = []) {e : Entry} (he : e ∈ entries) :
    (Checkpoint.ofDisk disk root).locate table e.1.1 = .ok (some e.2) := by
  refine (h.locate_iff habsent).mpr ?_
  rwa [show ((e.1.1, 0), e.2) = e from Prod.ext (Prod.ext rfl (h.primary rfl e he).1.symm) rfl]

/-- **What a manifest has does not depend on other files** than those it lists. -/
theorem Root.Exact.states_eq (h : root.Exact disk)
    (hfiles : ∀ file ∈ root.fileIds, disk' file = disk file) (key : ℕ × ℕ) :
    (Checkpoint.ofDisk disk' root).states key = (Checkpoint.ofDisk disk root).states key := by
  obtain ⟨table, id⟩ := key
  obtain ⟨listed, hlisted, habsent, -, hrecords⟩ := h.exists_listed table
  have hlisted' : Listed disk' root table primaryIndex listed := by
    refine ⟨⟨hlisted.routed.ascending, fun lower part hpart => ?_, hlisted.routed.covered⟩,
      hlisted.fits, hlisted.primary⟩
    refine (hlisted.routed.shows lower part hpart).of_file ?_
    obtain ⟨info, hinfo, hid⟩ := h.files _ part hpart
    exact hid ▸ hfiles info.id (List.mem_map_of_mem hinfo)
  by_cases hid : id ∈ idsOf listed
  · obtain ⟨e, he, rfl⟩ := hid
    obtain ⟨-, slot, hslot⟩ := hlisted.primary rfl e he
    obtain ⟨g, hg, hheaps⟩ := hrecords e he slot hslot
    obtain ⟨hcurrent, hbase⟩ := entitySlot_eq_ok.mp hslot
    have hstate {kind locator : ℕ} (hkind : kind ∈ [0, 1])
        (hlocator : (splitLocator locator).1 = slot) :
        (Checkpoint.ofDisk disk' root).state false table kind locator e.1.1 =
          (Checkpoint.ofDisk disk root).state false table kind locator e.1.1 := by
      refine Checkpoint.state_congr (g := g) (hlocator ▸ hg) (hlocator ▸ hg) rfl
        (fun page => ?_) false
      change disk'.read _ _ = disk.read _ _
      rw [Disk.read, Disk.read, hfiles _ (hheaps kind hkind)]
    rw [Checkpoint.states_some (hlisted'.locate_mem habsent he),
      Checkpoint.states_some (hlisted.locate_mem habsent he), hstate (by simp) hcurrent,
      hstate (by simp) hbase]
  · rw [hlisted'.states_none hid, hlisted.states_none hid]

end Across

/-! ### Across a build -/

section Build

variable {held disk disk' : Disk} {job : Store.CheckpointJob} {next : Checkpoint}

/-- A state that is left where it is, under a slot with another number. -/
theorem Store.Checkpoint.state_kept {root next : Checkpoint} {absorb : SortedSet ℕ}
    {generation lsn table kind old new locator locator' id : ℕ} {slots : List (Option ℕ)}
    (hroot : root = .ofDisk held root.manifest) (hnext : next = .ofDisk disk' next.manifest)
    (hfiles : ∀ file ∈ root.manifest.fileIds, disk' file = held file)
    (hrebuild : root.manifest.rebuildSlots absorb generation lsn =
      .ok (next.manifest.generations, slots)) (hnew : newSlot slots old = some new)
    {g : GenerationInfo} (hg : root.manifest.generations[old]? = some g) (hkind : kind ∈ [0, 1])
    (hfile : ⟨table, g.generation, kind, 0⟩ ∈ root.manifest.fileIds)
    (hold : (splitLocator locator).1 = old)
    (hmoved : splitLocator locator' = (new, (splitLocator locator).2)) :
    next.state false table kind locator' id = root.state false table kind locator id := by
  refine Checkpoint.state_congr (g := g) ?_ ?_ ?_ (fun page => ?_) false
  · rw [hmoved]
    exact (Root.mem_keptFiles hrebuild hnew hg hkind hfile).1
  · rw [hold]
    exact hg
  · rw [hmoved]
  · rw [hnext, hroot]
    change disk'.read _ _ = held.read _ _
    rw [Disk.read, Disk.read, hfiles _ hfile]

/-- **An entity is had as before**, wherever its entry comes from. -/
theorem Origin.states {listed : List Entry} {table : ℕ} {slots : List (Option ℕ)} {e : Entry}
    (h : Origin job.state listed slots (next.manifest.generations.length - 1) table
      (disk'.Record ⟨table, job.generation, 0, 0⟩ job.state.lsn)
      (disk'.Record ⟨table, job.generation, 1, 0⟩ job.state.lsn) e)
    (hroot : job.state.root = .ofDisk held job.state.root.manifest)
    (hnext : next = .ofDisk disk' next.manifest)
    (hfiles : ∀ file ∈ job.state.root.manifest.fileIds, disk' file = held file)
    (hrebuild : job.state.root.manifest.rebuildSlots (Root.absorbed job.plan) job.generation
      job.state.lsn = .ok (next.manifest.generations, slots))
    (hlisted : ∀ e ∈ listed, job.state.root.locate table e.1.1 = .ok (some e.2))
    (hrecords : ∀ e ∈ listed, job.state.root.manifest.Records table e.2)
    (hformed : job.state.Formed) (hlsn : job.state.lsn < 2 ^ 64)
    (hlocate : next.locate table e.1.1 = .ok (some e.2)) :
    next.states (table, e.1.1) = job.state.states (table, e.1.1) := by
  cases h with
  | @kept e old new hmem hold hnew huntouched =>
    -- the record stays in its file, under another slot
    obtain ⟨g, hg, hheaps⟩ := hrecords e hmem old hold
    have hsmall := (rebuildSlots_newSlot hrebuild hnew).2.1
    obtain ⟨hcurrent, hbase⟩ := splitLocator_remap e.2 hsmall
    obtain ⟨hold, hold'⟩ := entitySlot_eq_ok.mp hold
    have hstate {kind locator locator' : ℕ} (hkind : kind ∈ [0, 1])
        (hold : (splitLocator locator).1 = old)
        (hmoved : splitLocator locator' = (new, (splitLocator locator).2)) :
        next.state false table kind locator' e.1.1 =
          job.state.root.state false table kind locator e.1.1 :=
      Checkpoint.state_kept hroot hnext hfiles hrebuild hnew hg hkind
        (hheaps kind hkind) hold hmoved
    rw [ReadState.states, ExtTreeMap.getElem?_eq_none huntouched]
    dsimp only
    rw [Checkpoint.states_some hlocate, Checkpoint.states_some (hlisted e hmem),
      hstate (by simp) hold hcurrent, hstate (by simp) hold' hbase]
  | @anew id currentAt baseAt data hload hcurrentAt hbaseAt hcurrent hbase =>
    -- the entity has been written to files of the build
    have hdata : data.Formed id := hformed.loadCharged hload
    obtain ⟨hlast, hg⟩ := rebuildSlots_last hrebuild
    have hstate {kind location : ℕ} {e : Entity} (hlocation : location < 2 ^ 56)
        (hrecord : disk'.Record ⟨table, job.generation, kind, 0⟩ job.state.lsn location
          (encodeEntity e)) (he : e.State id) :
        (next.state false table kind (locate (next.manifest.generations.length - 1) location)
          id).result = .ok e := by
      rw [hnext]
      exact Disk.Record.state (g := ⟨job.generation, job.state.lsn⟩) hrecord hlsn
        (splitLocator_locate hlast hlocation) hg he false
    rw [ReadState.states_of_load hload, Checkpoint.states_some hlocate]
    dsimp only
    rw [hstate hcurrentAt hcurrent hdata.current, ok_bind, hstate hbaseAt hbase hdata.base, ok_bind,
      if_neg (Nat.not_lt.mpr hdata.ordered)]
    rfl

/-- **A checkpoint that was built has what its view has**: all entities, with the same current
states and the same bases. -/
theorem Store.CheckpointJob.Built.states (h : job.Built held disk disk' next)
    (hroot : job.state.root = .ofDisk held job.state.root.manifest)
    (hfiles : ∀ file ∈ job.state.root.manifest.fileIds, disk' file = held file)
    (hcatalog : ∀ table ∈ job.state.root.manifest.catalog, table ∈ job.state.catalog)
    (htables : OfTables job.state.catalog job.state.overlay) (hformed : job.state.Formed)
    (hlsn : job.state.lsn < 2 ^ 64) (key : ℕ × ℕ) : next.states key = job.state.states key := by
  obtain ⟨table, id⟩ := key
  obtain ⟨slots, listed, listed', hrebuild, hlisted, hlisted'⟩ := h.lists
  obtain ⟨hold, habsent, hrecords⟩ := hlisted table
  have hmissing (hnot : id ∉ idsOf (listed table)) (huntouched : (table, id) ∉ job.state.overlay) :
      job.state.states (table, id) = .ok none := by
    rw [ReadState.states, ExtTreeMap.getElem?_eq_none huntouched]
    dsimp only
    rw [hroot, hold.states_none hnot]
  by_cases htable : table ∈ job.state.catalog
  swap
  · -- without its table there is nothing of it on either side
    have hnext : next.states (table, id) = .ok none := by
      refine Checkpoint.states_none (if_pos fun hcontains => htable ?_)
      exact h.catalog_eq ▸ ExtTreeMap.contains_iff_mem.mp hcontains
    rw [hnext, hmissing]
    · rw [habsent fun hmem => htable (hcatalog table hmem)]
      rintro ⟨e, he, -⟩
      cases he
    · intro hmem
      obtain ⟨data, hdata⟩ :=
        Option.isSome_iff_exists.mp (ExtTreeMap.mem_iff_isSome_getElem?.mp hmem)
      exact htable (htables _ data hdata)
  obtain ⟨hnew, hids, horigin⟩ := hlisted' table htable
  by_cases hid : id ∈ idsOf (listed' table)
  · obtain ⟨e, he, rfl⟩ := hid
    refine (horigin e he).states hroot h.eq_ofDisk hfiles hrebuild (fun e he => ?_) hrecords hformed
      hlsn ?_
    · rw [hroot]
      exact hold.locate_mem habsent he
    · rw [h.eq_ofDisk]
      exact hnew.locate_mem (fun hnot => absurd (h.catalog_eq ▸ htable) hnot) he
  · obtain ⟨hnot, hoverlay⟩ := not_or.mp (mt (hids id).mpr hid)
    rw [h.eq_ofDisk, hnew.states_none hid, hmissing hnot]
    refine fun hmem => hoverlay ⟨hmem, ?_⟩
    obtain ⟨data, hdata⟩ := Option.isSome_iff_exists.mp (ExtTreeMap.mem_iff_isSome_getElem?.mp hmem)
    exact Nat.le_of_lt_succ (hformed.overlay _ data hdata).current.id_lt

end Build

end EveDB
