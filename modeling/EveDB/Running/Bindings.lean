import EveDB.Running.Files

/-!
# What a build may name

A checkpoint that is built lists files that were there before it: those of the manifest it is built
over, and those with the history of the entities in memory. Of all manifests that there have been,
these are never bound to others than the current one and the one whose place it has taken
(`Running.Bindings`): a batch is bound to the current manifest when it is committed, and what is
laid over a view when a checkpoint is installed has been committed since it was captured.

So the builds of a running database are those that recovery allows for (`Running.build_files`).
-/

namespace EveDB

open Std Store

/-- A build lists files that are named by the view it was captured from, and files of its own. -/
theorem Store.CheckpointJob.build_here {job : Store.CheckpointJob} {storage : Storage}
    {held disk disk' : Disk} {failure : Option String} {next : Checkpoint} {here : FileInfo → Prop}
    (h : job.state.root.manifest.Exact held)
    (hroot : job.state.root = .ofDisk held job.state.root.manifest)
    (hfiles : job.state.root.manifest.SameIndexes held disk) (hhere : job.state.Here here)
    (hlsn : job.state.lsn < 2 ^ 64)
    (hok : (job.build storage disk failure).result = .ok (next, disk')) :
    ∀ info ∈ next.manifest.files,
      here info ∨ (disk' info.id).isSome ∧ info.generation = job.generation := by
  obtain ⟨built, hpass, rfl, rfl, -⟩ := job.build_eq_ok hok
  obtain ⟨listed, -, -, htabled⟩ := job.tabled h hroot hfiles hhere hlsn hpass
  intro info hinfo
  refine (htabled.present info hinfo).imp id fun hnew => ?_
  obtain ⟨file, hfile, hid⟩ := List.mem_map.mp hnew
  obtain ⟨-, hgeneration, -, -⟩ := htabled.written file hfile
  refine ⟨?_, ?_⟩
  · rw [← hid]
    exact Option.isSome_iff_exists.mpr ⟨file.2, Disk.write_of_mem htabled.nodup hfile⟩
  · exact (congrArg FileId.generation hid).symm.trans hgeneration

namespace Running

/-! ### The two manifests -/

/-- The current manifest, and the one whose place it has taken. -/
def Near (s : Running) (root : Checkpoint) : Prop :=
  root = s.database.state.root ∨ s.replaced = some root.manifest

/-- **What entities in memory are bound to.** What has been committed since a checkpoint was
captured is bound to the current manifest. -/
structure Bindings (s : Running) : Prop where
  state : s.database.state.Rests s.Near
  tail : ∀ tail ∈ s.database.checkpointTail, Store.Bound (· = s.database.state.root) tail
  building : ∀ job, s.work = .building job → job.state.Rests s.Near

variable {storage : Storage} {s s' : Running}

/-- **A group commit** binds what it publishes to the current manifest. -/
theorem Bindings.commit (h : s.Bindings) (hsound : s.Sound) {call : CommitCall}
    {answers : List (Option (Result ℕ))} {db : Database}
    (hbatches : ∀ batch ∈ call.batches, ∃ view ∈ s.views, batch.HandedOver view)
    (hcommit : call.run s.database = (answers, db)) (c : Coordinator)
    (written : List Store.Prepared) :
    Bindings { s with database := db, coordinator := c, written } := by
  have hroot : db.state.root = s.database.state.root := by
    rcases Database.commit_cases hsound.sharedMode (hsound.base_le hbatches) hcommit with
      ⟨wal, poisoned, rfl, -⟩ | ⟨tick, qs, hready, hstate, -⟩
    · rfl
    · rw [hstate, (hready.publishEach_spec rfl).1]
  have hnear (root : Checkpoint) (hroot' : s.Near root) :
      Near { s with database := db, coordinator := c, written } root :=
    hroot'.imp (fun heq => heq.trans hroot.symm) id
  refine ⟨?_, ?_, fun job hjob => (h.building job hjob).mono hnear⟩
  · exact (hsound.rests_commit hbatches hcommit ⟨h.state, fun tail htail =>
      (h.tail tail htail).mono fun _ heq => Or.inl heq⟩).state.mono hnear
  · change ∀ tail ∈ db.checkpointTail, Store.Bound (· = db.state.root) tail
    rw [hroot]
    exact Database.commit_tail_bound (R := s.Anchored) (fun _ hsource => hsource.within)
      (fun _ hsource => hsource.eq_of_generation) (fun view hview => (hsound.views view hview).2)
      hsound.sharedMode (hsound.base_le hbatches) hbatches h.tail hcommit

/-- **Every step** keeps what entities are bound to. -/
theorem Bindings.step (h : s.Bindings) (hsound : s.Sound) (hstep : Step storage s s') :
    s'.Bindings := by
  cases hstep with
  | pin hopen => exact { h with }
  | release hviews => exact { h with }
  | commit hvalid haccepted hbatches htyped hcommit => exact h.commit hsound hbatches hcommit _ _
  | capture hidle hcapture =>
    obtain ⟨hstate, -, -, header, rfl⟩ := Database.captureCheckpoint_ok hcapture
    refine ⟨h.state, ?_, ?_⟩
    · rintro _ ⟨⟩
      exact every_empty
    · rintro _ ⟨⟩
      exact hstate ▸ h.state
  | captureFailed hidle hcapture =>
    rcases Database.captureCheckpoint_cases hcapture with ⟨_, _, hok, -⟩ | ⟨e, -, -, rfl | rfl, -⟩
    · cases hok
    · exact { h with }
    · exact { h with }
  | build hbuilding hbuild =>
    refine { h with building := ?_ }
    rintro job ⟨⟩
  | abandon hbuilding hleft =>
    refine ⟨h.state, ?_, ?_⟩
    · rintro _ ⟨⟩
    · rintro job ⟨⟩
  | install hinstalling hinstall =>
    obtain ⟨tail, record, htail, rfl⟩ := Database.installCheckpoint_ok hinstall
    refine ⟨⟨Or.inl rfl, (h.tail tail htail).mono ?_⟩, ?_, ?_⟩
    -- what has been committed since the capture is bound to the manifest that is replaced
    · rintro root rfl
      exact Or.inr rfl
    · rintro _ ⟨⟩
    · rintro job ⟨⟩
  | installFailed hinstalling hinstall =>
    obtain ⟨wal, poisoned, rfl⟩ := Database.installCheckpoint_error hinstall
    refine { h with building := ?_ }
    rintro job ⟨⟩
  | sweep hinstalled =>
    refine { h with building := ?_ }
    rintro job ⟨⟩
  | remove file hsweeping hfile => exact { h with }
  | swept hsweeping =>
    refine { h with building := ?_ }
    rintro job ⟨⟩

/-- What has been opened is bound to the manifest that was found. -/
theorem bindings_opened {disk : Disk} {env : Env} {options : Options} {dir dir' : Directory}
    {db : Database} {next : ℕ} {roots : List (Root × Disk)} {replaced : Option Root}
    {opened : ReadState} {written : List Store.Prepared}
    (hopen : openDatabase env (fun root => (Checkpoint.ofDisk disk root).files) options dir =
      .ok (db, dir')) :
    Bindings
      { disk, database := { db with sharedMode := true }, nextGeneration := next
        coordinator := .new, work := .idle, views := [], roots, replaced, opened, written } := by
  obtain ⟨-, hrecovered⟩ := openDatabase_recovered hopen
  refine ⟨⟨Or.inl rfl, hrecovered.sources.mono fun root heq => Or.inl heq⟩, ?_, ?_⟩
  · change ∀ tail ∈ db.checkpointTail, _
    rw [checkpointTail_open hopen]
    rintro _ ⟨⟩
  · rintro job ⟨⟩

/-- **Entities in memory are bound to these two manifests** at all times. -/
theorem Reachable.bindings (h : Reachable storage s) : s.Bindings := by
  induction h with
  | opened hopen => exact bindings_opened hopen
  | step h hstep ih => exact ih.step h.sound hstep
  | reopened h hreopens ih =>
    obtain ⟨hleft, hopen, hroot, hverified, hnext⟩ := hreopens
    exact bindings_opened hopen

/-! ### Builds -/

/-- **The files of a build**: they are those of the current manifest, those of the manifest whose
place it has taken, and files of its own generation, which it has written. -/
theorem build_files (h : Reachable storage s) {job : Store.CheckpointJob} {failure : Option String}
    {root : Checkpoint} {disk : Disk} (hbuilding : s.work = .building job)
    (hbuild : (job.build storage s.disk failure).result = .ok (root, disk)) :
    ∀ info ∈ root.manifest.files, info ∈ s.database.state.root.manifest.files ∨
      (∃ previous, s.replaced = some previous ∧ info ∈ previous.files) ∨
      (disk info.id).isSome ∧ info.generation = job.generation := by
  have hworking := h.sound.working
  rw [hbuilding] at hworking
  obtain ⟨held, hheld, hexact, hsame, -⟩ := hworking.rests.root.grounded.exact_held
  have hnear := h.bindings.building job hbuilding
  have hlists (source : Checkpoint) (hsource : s.Near source) (info : FileInfo)
      (hinfo : info ∈ source.manifest.files) : info ∈ s.database.state.root.manifest.files ∨
        ∃ previous, s.replaced = some previous ∧ info ∈ previous.files := by
    rcases hsource with rfl | hreplaced
    · exact Or.inl hinfo
    · exact Or.inr ⟨_, hreplaced, hinfo⟩
  intro info hinfo
  refine or_assoc.mp (job.build_here hexact hheld hsame ⟨hlists _ hnear.root, ?_⟩
    (Nat.lt_succ_of_le hworking.bounded) hbuild info hinfo)
  exact fun key data hdata source hsource =>
    hlists _ (hnear.overlay key data hdata source hsource).1

end Running

end EveDB
