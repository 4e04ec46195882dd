import EveDB.Running.Orders

/-!
# What holds of a shared database at all times

Whatever a shared database does, its manifests are sound (`Running.Reachable.sound`). The counters
of each manifest in use are exact, and the directory has all its files as they were when it was read
(`Checkpoint.Grounded`); what entities in memory are bound to is such a manifest, at most as new as
the current one and with no entity that this one lacks (`Checkpoint.Anchored`).

Nothing of this is undone by what comes in between the sections of the maintenance. A build adds
files of its own generation, and a cleanup removes none that a manifest in use lists: what has been
bound to an older manifest since the installation was in the view behind it or in a view that is
pinned, and what has been pinned since is bound to what was kept.
-/

namespace EveDB

open Std Store Index

/-! ### Manifests and their files -/

/-- A directory has the files of a manifest, as they are held in another one. -/
def Root.Stocked (root : Root) (held disk : Disk) : Prop :=
  ∀ file ∈ root.fileIds, ∃ bytes, held file = some bytes ∧ disk file = some bytes

/-- The partitions of an exact manifest are in files it lists. -/
theorem Root.Exact.sameIndexes_of_eq {root : Root} {held disk disk' : Disk} (h : root.Exact held)
    (hfiles : ∀ file ∈ root.fileIds, disk' file = disk file) : root.SameIndexes disk disk' := by
  intro table lower part hpart
  obtain ⟨info, hinfo, hid⟩ := h.files _ part hpart
  exact hid ▸ hfiles info.id (List.mem_map_of_mem hinfo)

/-- **A manifest that is grounded**: its counters are exact, and the directory has its files as they
are read. -/
structure Store.Checkpoint.Grounded (disk : Disk) (root : Checkpoint) : Prop where
  counted : root.manifest.Exact disk
  held : ∃ held, root = .ofDisk held root.manifest ∧ root.manifest.Stocked held disk

/-- All files of a manifest are to be found among these. -/
def Store.Checkpoint.FilesIn (files : List FileId) (root : Checkpoint) : Prop :=
  ∀ file ∈ root.manifest.fileIds, file ∈ files

/-- **A manifest that is anchored** in the current one: it is grounded, has no entity that the
current one lacks, and is older unless it is the current one itself. -/
structure Store.Checkpoint.Anchored (disk : Disk) (top root : Checkpoint) : Prop where
  grounded : root.Grounded disk
  within : ∀ key, root.Has key → top.Has key
  older : root = top ∨ root.manifest.generation < top.manifest.generation

namespace Store.Checkpoint

variable {disk disk' : Disk} {root top top' : Checkpoint}

/-- The directory it is read from holds its primary indexes as they are. -/
theorem Grounded.exact_held (h : root.Grounded disk) : ∃ held, root = .ofDisk held root.manifest ∧
    root.manifest.Exact held ∧ root.manifest.SameIndexes held disk ∧
      root.manifest.Stocked held disk := by
  obtain ⟨held, hroot, hstocked⟩ := h.held
  have hsame : root.manifest.SameIndexes held disk := by
    refine h.counted.sameIndexes_of_eq fun file hfile => ?_
    obtain ⟨bytes, hheld, hdisk⟩ := hstocked file hfile
    rw [hheld, hdisk]
  exact ⟨held, hroot, h.counted.of_sameIndexes hsame.symm, hsame, hstocked⟩

/-- All its files are there. -/
theorem Grounded.present (h : root.Grounded disk) :
    ∀ file ∈ root.manifest.fileIds, (disk file).isSome := by
  intro file hfile
  obtain ⟨held, -, hstocked⟩ := h.held
  obtain ⟨bytes, -, hdisk⟩ := hstocked file hfile
  rw [hdisk]
  rfl

/-- It is grounded wherever its files are. -/
theorem Grounded.of_files (h : root.Grounded disk)
    (hfiles : ∀ file ∈ root.manifest.fileIds, disk' file = disk file) : root.Grounded disk' := by
  obtain ⟨held, hroot, hstocked⟩ := h.held
  refine ⟨h.counted.of_sameIndexes (h.counted.sameIndexes_of_eq hfiles), held, hroot,
    fun file hfile => ?_⟩
  rw [hfiles file hfile]
  exact hstocked file hfile

/-- What has been added to a directory takes nothing away. -/
theorem Grounded.of_added (h : root.Grounded disk)
    (hadded : ∀ file, disk' file = disk file ∨ disk file = none) : root.Grounded disk' := by
  refine h.of_files fun file hfile => (hadded file).resolve_right fun hnone => ?_
  have hsome := h.present file hfile
  rw [hnone] at hsome
  cases hsome

/-- Nor has the removal of a file that is kept nowhere. -/
theorem Grounded.of_removed (h : root.Grounded disk) {keep : List FileId} (hin : root.FilesIn keep)
    {file : FileId} (hfile : file ∉ keep) : root.Grounded (Function.update disk file none) := by
  refine h.of_files fun other hother => Function.update_of_ne ?_ _ _
  rintro rfl
  exact hfile (hin other hother)

theorem Anchored.self (h : top.Grounded disk) : Anchored disk top top :=
  ⟨h, fun _ h => h, Or.inl rfl⟩

theorem Anchored.ground (h : Anchored disk top root)
    (hground : root.Grounded disk → root.Grounded disk') : Anchored disk' top root :=
  ⟨hground h.grounded, h.within, h.older⟩

/-- **What is anchored stays anchored** in a newer manifest with all entities. -/
theorem Anchored.under (h : Anchored disk top root) (hwithin : ∀ key, top.Has key → top'.Has key)
    (hnewer : top.manifest.generation < top'.manifest.generation) : Anchored disk top' root := by
  refine ⟨h.grounded, fun key hkey => hwithin key (h.within key hkey), Or.inr ?_⟩
  rcases h.older with rfl | hlt
  · exact hnewer
  · exact hlt.trans hnewer

/-- Two manifests of one generation are the same. -/
theorem Anchored.eq_of_generation (h : Anchored disk top root)
    (hgeneration : root.manifest.generation = top.manifest.generation) : root = top :=
  h.older.resolve_right fun hlt => hlt.ne hgeneration

/-- An entity that a manifest has is of one of its tables. -/
theorem Has.table {key : ℕ × ℕ} (h : root.Has key) : key.1 ∈ root.manifest.catalog := by
  obtain ⟨value, hvalue⟩ := h
  unfold locate at hvalue
  split at hvalue
  · cases hvalue
  · next hcontains => exact ExtTreeMap.contains_iff_mem.mp (not_not.mp hcontains)

end Store.Checkpoint

/-- **A view needs the files** of what it rests on. -/
theorem Store.ReadState.Rests.fileIds {view : ReadState} {R : Checkpoint → Prop}
    (h : view.Rests R) :
    view.Rests (Checkpoint.FilesIn view.fileIds) := by
  refine ⟨fun file hfile => List.mem_append_left _ hfile, fun key data hdata source hsource =>
    ⟨fun file hfile => List.mem_append_right _ (List.mem_flatMap.mpr ⟨(key, data), ?_, ?_⟩), ?_⟩⟩
  · exact ExtTreeMap.mem_toList_iff_getElem?_eq_some.mpr hdata
  · change file ∈ data.disk.elim [] fun disk => disk.root.manifest.fileIds
    rw [Option.mem_def.mp hsource]
    exact hfile
  · exact (h.overlay key data hdata source hsource).2

/-- The files of a view whose manifests are grounded are there. -/
theorem Store.ReadState.Rests.here {view : ReadState} {disk : Disk} {R : Checkpoint → Prop}
    (h : view.Rests R) (hground : ∀ root, R root → root.Grounded disk) :
    view.Here fun info => (disk info.id).isSome where
  root info hinfo := (hground _ h.root).present info.id (List.mem_map_of_mem hinfo)
  overlay key data hdata source hsource info hinfo :=
    (hground _ (h.overlay key data hdata source hsource).1).present info.id
      (List.mem_map_of_mem hinfo)

namespace Running

/-! ### The invariant -/

/-- The manifests that are anchored in the current one. -/
def Anchored (s : Running) : Checkpoint → Prop :=
  Checkpoint.Anchored s.disk s.database.state.root

/-- **What a job has been captured from.** -/
structure Captured (s : Running) (job : Store.CheckpointJob) : Prop where
  root : job.state.root = s.database.state.root
  older : ∀ table ∈ job.state.root.manifest.catalog, table ∈ job.state.catalog
  newer : ∀ table ∈ job.state.catalog, table ∈ s.database.state.catalog
  bounded : job.state.lsn ≤ maxU64
  behind : job.state.lsn ≤ s.database.state.lsn
  above : job.state.root.manifest.generation < job.generation
  below : job.generation < s.nextGeneration
  tables : OfTables job.state.catalog job.state.overlay
  rests : job.state.Rests s.Anchored
  tailed : ∃ tail, s.database.checkpointTail = some tail ∧ ∀ key : ℕ × ℕ,
    s.database.state.overlay[key]? = (tail[key]?).or job.state.overlay[key]?

/-- **What has come of a job.** -/
structure Came (s : Running) (job : Store.CheckpointJob) (root : Checkpoint) : Prop where
  grounded : root.Grounded s.disk
  generation_eq : root.manifest.generation = job.generation
  lsn_eq : root.manifest.lsn = job.state.lsn
  catalog_eq : root.manifest.catalog = job.state.catalog
  has_iff : ∀ key, root.Has key ↔ key.1 ∈ job.state.catalog ∧
    (job.state.root.Has key ∨ key ∈ job.state.overlay ∧ key.2 ≤ maxU64)

/-- A manifest that has been installed and whose files are all there, as they were then. -/
def Recoverable (s : Running) (root : Root) : Prop :=
  ∃ held, (root, held) ∈ s.roots ∧ root.Stocked held s.disk

/-- What is known where the maintenance stands. -/
def Working (s : Running) : Work → Prop
  | .idle => True
  | .building job => s.Captured job
  | .installing job root => s.Captured job ∧ s.Came job root
  | .installed previous state => s.database.Rests (Checkpoint.FilesIn state.fileIds) ∧
      s.Recoverable previous
  | .sweeping keep => s.database.Rests (Checkpoint.FilesIn keep) ∧
      ∀ view ∈ s.views, view.Rests (Checkpoint.FilesIn keep)

/-- **A sound database**: all it rests on is anchored, its catalog has what its manifests have, and
the views that are of this catalog are known. -/
structure Sound (s : Running) : Prop where
  sharedMode : s.database.sharedMode = true
  published : s.database.published = s.database.state
  rests : s.database.Rests s.Anchored
  catalog : ∀ table ∈ s.database.state.root.manifest.catalog, table ∈ s.database.state.catalog
  tables : s.database.Every fun key _ => key.1 ∈ s.database.state.catalog
  bounded : s.database.state.lsn ≤ maxU64
  below : s.database.state.root.manifest.generation < s.nextGeneration
  revision : s.coordinator.catalogRevision ≤ s.database.state.lsn
  views : ∀ view ∈ s.views, s.database.Watches s.coordinator view ∧ view.Rests s.Anchored
  working : s.Working s.work
  recoverable : s.Recoverable s.database.state.root.manifest
  roots : ∀ entry ∈ s.roots, entry.1.Exact entry.2 ∧
    (∀ file ∈ entry.1.fileIds, (entry.2 file).isSome) ∧ entry.1.lsn ≤ maxU64

variable {storage : Storage} {s s' : Running}

theorem Sound.grounded (h : s.Sound) : s.database.state.root.Grounded s.disk :=
  h.rests.state.root.grounded

/-! ### Commits -/

section Commit

variable {E : Engine} {S : Semantics E} {late : ℕ → Bool}
    {claimed accepted : List (EveDB.Prepared S)}
  {completed : List (EveDB.Prepared S × Result ℕ)} {call : CommitCall}
  {answers : List (Option (Result ℕ))} {db : Database}
  (hvalid : s.coordinator.validateGroup s.database.poisoned late ∅
    s.coordinator.catalogRevision claimed = (accepted, completed))
  (haccepted : List.Forall₂ Prepared.Represents call.batches accepted)
  (hbatches : ∀ batch ∈ call.batches, ∃ view ∈ s.views, batch.HandedOver view)
  (hcommit : call.run s.database = (answers, db))

include hbatches in
theorem Sound.base_le (h : s.Sound) :
    ∀ b ∈ call.batches, b.baseSequence ≤ s.database.state.lsn := by
  intro b hb
  obtain ⟨view, hview, hover⟩ := hbatches b hb
  rw [hover.catalog.2.2]
  exact (h.views view hview).1.behind

include hbatches hcommit in
/-- What a group commit publishes rests on what the database does. -/
theorem Sound.rests_commit (h : s.Sound) {T : Checkpoint → Prop} (hrests : s.database.Rests T) :
    db.Rests T :=
  Database.Rests.commit (R := s.Anchored) (fun _ hsource => hsource.within)
    (fun _ hsource => hsource.eq_of_generation) (fun view hview => (h.views view hview).2)
    h.sharedMode (h.base_le hbatches) hbatches hrests hcommit

include hvalid haccepted hbatches hcommit

theorem Sound.moves (h : s.Sound) : Database.Moves s.coordinator
    (s.coordinator.record (answered accepted answers)) s.database db :=
  Database.moves_commit h.sharedMode h.revision (fun view hview => (h.views view hview).1) hvalid
    haccepted hbatches hcommit

/-- **A group commit** keeps a database sound. -/
theorem Sound.commit (h : s.Sound) (written : List Store.Prepared) : Sound { s with
    database := db, coordinator := s.coordinator.record (answered accepted answers), written } := by
  have hmoves := h.moves hvalid haccepted hbatches hcommit
  have hanchored : Checkpoint.Anchored s.disk db.state.root = s.Anchored :=
    congrArg (Checkpoint.Anchored s.disk) hmoves.root
  have hcaptured {job : Store.CheckpointJob} (hjob : s.Captured job) : Captured { s with
      database := db, coordinator := s.coordinator.record (answered accepted answers),
      written } job := by
    refine ⟨hjob.root.trans hmoves.root.symm, hjob.older,
      fun table htable => hmoves.catalog table (hjob.newer table htable), hjob.bounded,
      hjob.behind.trans hmoves.behind, hjob.above, hjob.below, hjob.tables, ?_, ?_⟩
    · change job.state.Rests (Checkpoint.Anchored s.disk db.state.root)
      exact hanchored ▸ hjob.rests
    · obtain ⟨tail, htail, htailed⟩ := hjob.tailed
      exact Database.commit_tail h.sharedMode (h.base_le hbatches) hcommit htail htailed
  refine ⟨hmoves.sharedMode, hmoves.published h.published, ?_, fun table htable => ?_, ?_,
    hmoves.bounded h.bounded, hmoves.root.symm ▸ h.below, hmoves.revision h.revision,
    fun view hview => ⟨hmoves.watches view (h.views view hview).1, ?_⟩, ?_, ?_, h.roots⟩
  · change db.Rests (Checkpoint.Anchored s.disk db.state.root)
    exact hanchored ▸ h.rests_commit hbatches hcommit h.rests
  · exact hmoves.catalog table (h.catalog table (hmoves.root ▸ htable))
  · exact h.tables.commit_ofTables h.sharedMode (fun view hview => (h.views view hview).1) hvalid
      haccepted hbatches hcommit
  · change view.Rests (Checkpoint.Anchored s.disk db.state.root)
    exact hanchored ▸ (h.views view hview).2
  · have hworks (work : Work) (hworking : s.Working work) : Working { s with
        database := db
        coordinator := s.coordinator.record (answered accepted answers)
        written } work := by
      cases work with
      | idle => trivial
      | building job => exact hcaptured hworking
      | installing job root =>
        obtain ⟨hjob, hcame⟩ := hworking
        exact ⟨hcaptured hjob, hcame.grounded, hcame.generation_eq, hcame.lsn_eq, hcame.catalog_eq,
          hcame.has_iff⟩
      | installed previous state =>
        exact ⟨h.rests_commit hbatches hcommit hworking.1, hworking.2⟩
      | sweeping keep => exact ⟨h.rests_commit hbatches hcommit hworking.1, hworking.2⟩
    exact hworks s.work h.working
  · change Recoverable s db.state.root.manifest
    rw [hmoves.root]
    exact h.recoverable

end Commit

/-! ### The other steps -/

/-- What leaves the view alone keeps a database sound. -/
theorem Sound.same (h : s.Sound) (db : Database) (next : ℕ) (work : Work)
    (hshared : db.sharedMode = s.database.sharedMode) (hstate : db.state = s.database.state)
    (hpublished : db.published = s.database.published)
    (htail : ∀ tail ∈ db.checkpointTail, tail ∈ s.database.checkpointTail ∨ tail = ∅)
    (hnext : s.nextGeneration ≤ next)
    (hwork : Working { s with database := db, nextGeneration := next, work } work) :
    Sound { s with database := db, nextGeneration := next, work } := by
  have hanchored : Checkpoint.Anchored s.disk db.state.root = s.Anchored := by
    rw [hstate]
    rfl
  have hevery {P : ℕ × ℕ → EntityData → Prop} (hevery : s.database.Every P) : db.Every P := by
    refine ⟨hstate ▸ hevery.state, fun tail hmem => ?_⟩
    rcases htail tail hmem with hmem | rfl
    · exact hevery.tail tail hmem
    · exact every_empty
  have hrests := hevery ⟨h.rests.state.overlay, h.rests.tail⟩
  refine ⟨hshared.trans h.sharedMode, hpublished.trans (h.published.trans hstate.symm), ?_,
    hstate ▸ h.catalog, ?_, hstate ▸ h.bounded, ?_, hstate ▸ h.revision, fun view hview =>
      ?_, hwork,
    ?_, h.roots⟩
  · change db.Rests (Checkpoint.Anchored s.disk db.state.root)
    rw [hanchored]
    exact ⟨⟨hstate ▸ h.rests.state.root, hrests.state⟩, hrests.tail⟩
  · rw [hstate]
    exact hevery h.tables
  · rw [hstate]
    exact h.below.trans_le hnext
  · obtain ⟨⟨hbehind, hcatalog⟩, hview⟩ := h.views view hview
    refine ⟨⟨hstate.symm ▸ hbehind, hstate.symm ▸ hcatalog⟩, ?_⟩
    change view.Rests (Checkpoint.Anchored s.disk db.state.root)
    rw [hanchored]
    exact hview
  · change Recoverable s db.state.root.manifest
    rw [hstate]
    exact h.recoverable

/-- So does what happens to the files, as long as those that are needed are left alone. -/
theorem Sound.files (h : s.Sound) (disk : Disk) (work : Work)
    (hrests : s.database.Rests (Checkpoint.Anchored disk s.database.state.root))
    (hviews : ∀ view ∈ s.views, view.Rests (Checkpoint.Anchored disk s.database.state.root))
    (hsame : ∀ file ∈ s.database.state.root.manifest.fileIds, disk file = s.disk file)
    (hwork : Working { s with disk, work } work) : Sound { s with disk, work } :=
  { h with
    rests := hrests
    views := fun view hview => ⟨(h.views view hview).1, hviews view hview⟩
    working := hwork
    recoverable := by
      obtain ⟨held, hheld, hstocked⟩ := h.recoverable
      refine ⟨held, hheld, fun file hfile => ?_⟩
      obtain ⟨bytes, hbytes, hdisk⟩ := hstocked file hfile
      exact ⟨bytes, hbytes, (hsame file hfile).trans hdisk⟩ }

/-- Files that are added. -/
theorem Sound.added (h : s.Sound) (disk : Disk) (work : Work)
    (hadded : ∀ file, disk file = s.disk file ∨ s.disk file = none)
    (hwork : Working { s with disk, work } work) : Sound { s with disk, work } := by
  have hground (root : Checkpoint) (hroot : s.Anchored root) :
      Checkpoint.Anchored disk s.database.state.root root :=
    hroot.ground fun hgrounded => hgrounded.of_added hadded
  refine h.files disk work (h.rests.mono hground)
    (fun view hview => (h.views view hview).2.mono hground) (fun file hfile => ?_) hwork
  refine (hadded file).resolve_right fun hnone => ?_
  have hsome := h.grounded.present file hfile
  rw [hnone] at hsome
  cases hsome

/-- What comes of a build, whose manifest is read where it was captured. -/
theorem Sound.built (h : s.Sound) {job : Store.CheckpointJob} {failure : Option String}
    {root : Checkpoint} {disk : Disk} (hbuilding : s.work = .building job)
    (hbuild : (job.build storage s.disk failure).result = .ok (root, disk)) :
    s.Captured job ∧ ∃ held, job.state.root = .ofDisk held job.state.root.manifest ∧
      job.state.root.manifest.Stocked held s.disk ∧ job.Built held s.disk disk root := by
  have hjob : s.Captured job := by
    have hworking := h.working
    rwa [hbuilding] at hworking
  obtain ⟨held, hheld, hexact, hsame, hstocked⟩ := hjob.rests.root.grounded.exact_held
  exact ⟨hjob, held, hheld, hstocked, job.build_exact hexact hheld hsame
    (hjob.rests.here fun _ hroot => hroot.grounded) hjob.older (Nat.lt_succ_of_le hjob.bounded)
    hjob.above hbuild⟩

/-- **A build** keeps a database sound. -/
theorem Sound.build (h : s.Sound) {job : Store.CheckpointJob} {failure : Option String}
    {root : Checkpoint} {disk : Disk} (hbuilding : s.work = .building job)
    (hbuild : (job.build storage s.disk failure).result = .ok (root, disk)) :
    Sound { s with work := .installing job root, disk } := by
  obtain ⟨hjob, held, hheld, -, hbuilt⟩ := h.built hbuilding hbuild
  have hadded (file : FileId) : disk file = s.disk file ∨ s.disk file = none :=
    (hbuilt.added file).imp id And.left
  refine h.added disk (.installing job root) hadded ⟨⟨hjob.root, hjob.older, hjob.newer,
    hjob.bounded, hjob.behind, hjob.above, hjob.below, hjob.tables, ?_, hjob.tailed⟩, ?_⟩
  · exact hjob.rests.mono fun _ hroot => hroot.ground fun hgrounded => hgrounded.of_added hadded
  · refine ⟨⟨hbuilt.counted, disk, hbuilt.eq_ofDisk, fun file hfile => ?_⟩, hbuilt.generation_eq,
      hbuilt.lsn_eq, hbuilt.catalog_eq, hbuilt.has_iff hheld⟩
    obtain ⟨info, hinfo, rfl⟩ := List.mem_map.mp hfile
    obtain ⟨bytes, hbytes⟩ := Option.isSome_iff_exists.mp (hbuilt.present info hinfo)
    exact ⟨bytes, hbytes, hbytes⟩

/-- The manifest that has come of a job has all entities of the current one. -/
theorem Came.within {job : Store.CheckpointJob} {root : Checkpoint} (h : s.Came job root)
    (hjob : s.Captured job) : ∀ key, s.database.state.root.Has key → root.Has key := by
  intro key hkey
  rw [← hjob.root] at hkey
  exact (h.has_iff key).mpr ⟨hjob.older _ hkey.table, Or.inl hkey⟩

/-- **An installation** keeps a database sound. -/
theorem Sound.install (h : s.Sound) {job : Store.CheckpointJob} {root : Checkpoint}
    {tail : SortedMap (ℕ × ℕ) EntityData} {record : Bytes}
    (hinstalling : s.work = .installing job root) (htail : s.database.checkpointTail = some tail) :
    Sound { s with
      work := .installed s.database.state.root.manifest
        (s.database.installed root tail record job.walFrontierBytes).state
      database := s.database.installed root tail record job.walFrontierBytes
      coordinator := s.coordinator.pruneRevisions
        (oldest { s with database := s.database.installed root tail record job.walFrontierBytes })
      roots := (root.manifest, s.disk) :: s.roots
      replaced := some s.database.state.root.manifest } := by
  have hworking := h.working
  rw [hinstalling] at hworking
  obtain ⟨hjob, hcame⟩ := hworking
  have hnewer : s.database.state.root.manifest.generation < root.manifest.generation := by
    rw [hcame.generation_eq, ← hjob.root]
    exact hjob.above
  have hunder (source : Checkpoint) (hsource : s.Anchored source) :
      Checkpoint.Anchored s.disk root source := hsource.under (hcame.within hjob) hnewer
  have hrests : Database.Rests (Checkpoint.Anchored s.disk root)
      (s.database.installed root tail record job.walFrontierBytes) := by
    refine ⟨⟨.self hcame.grounded, (h.rests.tail tail htail).mono hunder⟩, ?_⟩
    rintro _ ⟨⟩
  refine ⟨h.sharedMode, rfl, hrests, fun table htable => ?_, ⟨h.tables.tail tail htail, ?_⟩,
    h.bounded, ?_, h.revision, fun view hview => ⟨?_, (h.views view hview).2.mono hunder⟩,
    ⟨⟨hrests.state.fileIds, ?_⟩, ?_⟩, ?_, List.forall_mem_cons.mpr ⟨⟨hcame.grounded.counted,
      hcame.grounded.present, ?_⟩, h.roots⟩⟩
  · exact hjob.newer table (hcame.catalog_eq ▸ htable)
  · rintro _ ⟨⟩
  · exact hcame.generation_eq ▸ hjob.below
  · exact ⟨(h.views view hview).1.behind, (h.views view hview).1.catalog⟩
  · rintro _ ⟨⟩
  · obtain ⟨held, hheld, hstocked⟩ := h.recoverable
    exact ⟨held, List.mem_cons_of_mem _ hheld, hstocked⟩
  · refine ⟨s.disk, List.mem_cons_self, fun file hfile => ?_⟩
    obtain ⟨bytes, hbytes⟩ := Option.isSome_iff_exists.mp (hcame.grounded.present file hfile)
    exact ⟨bytes, hbytes, hbytes⟩
  · exact hcame.lsn_eq ▸ hjob.bounded

/-- **The removal of a file** that is not kept keeps a database sound. -/
theorem Sound.remove (h : s.Sound) {keep : List FileId} {file : FileId}
    (hsweeping : s.work = .sweeping keep) (hfile : file ∉ keep) :
    Sound { s with disk := Function.update s.disk file none } := by
  have hworking := h.working
  rw [hsweeping] at hworking
  obtain ⟨hcurrent, hviews⟩ := hworking
  have hground (root : Checkpoint) (hroot : s.Anchored root ∧ root.FilesIn keep) :
      Checkpoint.Anchored (Function.update s.disk file none) s.database.state.root root :=
    hroot.1.ground fun hgrounded => hgrounded.of_removed hroot.2 hfile
  have hkept := h.files (Function.update s.disk file none) (.sweeping keep)
    ((h.rests.and hcurrent).mono hground)
    (fun view hview => ((h.views view hview).2.and (hviews view hview)).mono hground)
    (fun other hother => Function.update_of_ne (fun heq => hfile ?_) _ _) ⟨hcurrent, hviews⟩
  swap
  · exact heq ▸ hcurrent.state.root other hother
  rwa [← hsweeping] at hkept

/-- **Every step** keeps a database sound. -/
theorem Sound.step (h : s.Sound) (hstep : Step storage s s') : s'.Sound := by
  cases hstep with
  | pin hopen =>
    have hview : s.database.Watches s.coordinator s.database.published ∧
        s.database.published.Rests s.Anchored := by
      rw [h.published]
      exact ⟨⟨le_rfl, fun _ => rfl⟩, h.rests.state⟩
    refine { h with views := List.forall_mem_cons.mpr ⟨hview, h.views⟩, working := ?_ }
    have hworks (work : Work) (hworking : s.Working work) :
        Working { s with views := s.database.published :: s.views } work := by
      cases work with
      | idle => trivial
      | building job => exact { hworking with }
      | installing job root => exact ⟨{ hworking.1 with }, { hworking.2 with }⟩
      | installed previous state => exact hworking
      | sweeping keep =>
        refine ⟨hworking.1, List.forall_mem_cons.mpr ⟨?_, hworking.2⟩⟩
        exact h.published.symm ▸ hworking.1.state
    exact hworks s.work h.working
  | @release l₁ l₂ view hviews =>
    have hsub (other : ReadState) (hother : other ∈ l₁ ++ l₂) : other ∈ s.views := by
      rw [hviews]
      rcases List.mem_append.mp hother with hmem | hmem
      · exact List.mem_append_left _ hmem
      · exact List.mem_append_right _ (List.mem_cons_of_mem _ hmem)
    have hworks (work : Work) (hworking : s.Working work) :
        Working { s with views := l₁ ++ l₂ } work := by
      cases work with
      | idle => trivial
      | building job => exact { hworking with }
      | installing job root => exact ⟨{ hworking.1 with }, { hworking.2 with }⟩
      | installed previous state => exact hworking
      | sweeping keep =>
        exact ⟨hworking.1, fun other hother => hworking.2 other (hsub other hother)⟩
    exact { h with
      views := fun other hother => h.views other (hsub other hother)
      working := hworks s.work h.working }
  | commit hvalid haccepted hbatches htyped hcommit =>
    exact h.commit hvalid haccepted hbatches hcommit _
  | capture hidle hcapture =>
    obtain ⟨hstate, hgeneration, rfl, header, rfl⟩ := Database.captureCheckpoint_ok hcapture
    refine h.same _ _ _ rfl rfl rfl (fun _ htail => Or.inr (Option.some.inj htail).symm)
      (Nat.le_succ _) ?_
    refine ⟨congrArg ReadState.root hstate, hstate ▸ h.catalog, hstate ▸ fun _ h => h,
      hstate ▸ h.bounded, hstate ▸ le_rfl, hgeneration ▸ hstate ▸ h.below,
      hgeneration ▸ Nat.lt_succ_self _, hstate ▸ h.tables.state, hstate ▸ h.rests.state, ∅, rfl,
      fun key => ?_⟩
    rw [ExtTreeMap.getElem?_empty, Option.none_or, hstate]
    rfl
  | captureFailed hidle hcapture =>
    rcases Database.captureCheckpoint_cases hcapture with ⟨_, _, hok, -⟩ | ⟨e, -, hnext, rfl | rfl,
      -⟩
    · cases hok
    · exact h.same _ _ s.work rfl rfl rfl (fun _ => Or.inl) hnext (hidle ▸ trivial)
    · exact h.same _ _ s.work rfl rfl rfl (fun _ => Or.inl) hnext (hidle ▸ trivial)
  | build hbuilding hbuild => exact h.build hbuilding hbuild
  | @abandon job disk hbuilding hleft =>
    have hadded := h.added disk .idle (fun file => (hleft file).imp id And.left) trivial
    exact hadded.same _ _ .idle rfl rfl rfl (by rintro _ ⟨⟩) le_rfl trivial
  | install hinstalling hinstall =>
    obtain ⟨tail, record, htail, rfl⟩ := Database.installCheckpoint_ok hinstall
    exact h.install hinstalling htail
  | installFailed hinstalling hinstall =>
    obtain ⟨wal, poisoned, rfl⟩ := Database.installCheckpoint_error hinstall
    exact h.same _ _ .idle rfl rfl rfl (fun _ => Or.inl) le_rfl trivial
  | @sweep previous state hinstalled =>
    have hworking := h.working
    rw [hinstalled] at hworking
    refine { h with working := ⟨hworking.1.mono fun root hroot file hfile => ?_,
      fun view hview => (h.views view hview).2.fileIds.mono fun root hroot file hfile => ?_⟩ }
    · exact List.mem_append_left _ (List.mem_append_right _ (hroot file hfile))
    · exact List.mem_append_right _ (List.mem_flatMap.mpr ⟨view, hview, hroot file hfile⟩)
  | remove file hsweeping hfile => exact h.remove hsweeping hfile
  | swept hsweeping => exact { h with working := trivial }

/-- A database that has been opened is sound, if the manifest that was found is grounded. -/
theorem sound_opened {disk : Disk} {env : Env} {options : Options} {dir dir' : Directory}
    {db : Database} {next : ℕ} {roots : List (Root × Disk)} {replaced : Option Root}
    {opened : ReadState} {written : List Store.Prepared}
    (hopen : openDatabase env (fun root => (Checkpoint.ofDisk disk root).files) options dir =
      .ok (db, dir'))
    (hgrounded : db.state.root.Grounded disk) (hlsn : db.state.root.manifest.lsn ≤ maxU64)
    (hnext : db.state.root.manifest.generation < next)
    (hrecoverable : ∃ held, (db.state.root.manifest, held) ∈ roots ∧
      db.state.root.manifest.Stocked held disk)
    (hroots : ∀ entry ∈ roots, entry.1.Exact entry.2 ∧
      (∀ file ∈ entry.1.fileIds, (entry.2 file).isSome) ∧ entry.1.lsn ≤ maxU64) :
    Sound
      { disk, database := { db with sharedMode := true }, nextGeneration := next
        coordinator := .new, work := .idle, views := [], roots, replaced, opened, written } := by
  obtain ⟨hpublished, hrecovered⟩ := openDatabase_recovered hopen
  have hnone {P : SortedMap (ℕ × ℕ) EntityData → Prop} : ∀ tail ∈ db.checkpointTail, P tail := by
    intro tail hmem
    rw [show db.checkpointTail = none from checkpointTail_open hopen] at hmem
    cases hmem
  refine ⟨rfl, hpublished, ⟨⟨.self hgrounded, hrecovered.sources.mono ?_⟩, hnone⟩,
    hrecovered.catalog, ⟨hrecovered.tables, hnone⟩, hrecovered.bounded hlsn, hnext, Nat.zero_le _,
    List.forall_mem_nil _, trivial, hrecoverable, hroots⟩
  rintro _ rfl
  exact .self hgrounded

/-- **So does the end of the process**, when the directory is opened again. -/
theorem Sound.reopens (h : s.Sound) (hreopens : Reopens s s') : s'.Sound := by
  obtain ⟨hleft, hopen, hroot, hverified, hnext⟩ := hreopens
  rename_i disk env options dir dir' db next held
  obtain ⟨-, hrecovered⟩ := openDatabase_recovered hopen
  obtain ⟨hexact, hpresent, hlsn⟩ := h.roots _ hroot
  have hsame (file : FileId) (hfile : file ∈ db.state.root.manifest.fileIds) :
      disk file = held file := by
    obtain ⟨info, hinfo, rfl⟩ := List.mem_map.mp hfile
    exact hverified info hinfo
  have hstocked (file : FileId) (hfile : file ∈ db.state.root.manifest.fileIds) :
      ∃ bytes, held file = some bytes ∧ disk file = some bytes := by
    obtain ⟨bytes, hbytes⟩ := Option.isSome_iff_exists.mp (hpresent file hfile)
    exact ⟨bytes, hbytes, (hsame file hfile).trans hbytes⟩
  refine sound_opened hopen ⟨hexact.of_sameIndexes (hexact.sameIndexes_of_eq hsame), disk,
    hrecovered.root_eq, fun file hfile => ?_⟩ hlsn hnext ⟨held, hroot, hstocked⟩ h.roots
  obtain ⟨bytes, -, hdisk⟩ := hstocked file hfile
  exact ⟨bytes, hdisk, hdisk⟩

/-- **A shared database is sound** at all times. -/
theorem Reachable.sound (h : Reachable storage s) : s.Sound := by
  induction h with
  | @opened env options dir' db hopen =>
    obtain ⟨-, hrecovered⟩ := openDatabase_recovered hopen
    have hmanifest : db.state.root.manifest = Root.empty := by
      rw [openDatabase_initial hopen]
    refine sound_opened hopen ⟨hmanifest ▸ Root.exact_empty _, fun _ => none, hrecovered.root_eq,
      ?_⟩
      ?_ ?_ ⟨_, List.mem_singleton.mpr (Prod.ext hmanifest rfl), ?_⟩
      (List.forall_mem_singleton.mpr ⟨Root.exact_empty _, List.forall_mem_nil _, Nat.zero_le _⟩)
    · rw [hmanifest]
      exact List.forall_mem_nil _
    · rw [hmanifest]
      exact Nat.zero_le _
    · rw [hmanifest]
      exact Nat.one_pos
    · rw [hmanifest]
      exact List.forall_mem_nil _
  | step _ hstep ih => exact ih.step hstep
  | reopened _ hreopens ih => exact ih.reopens hreopens

end Running

end EveDB
