import EveDB.Running.Sound
import EveDB.Builder.Reads

/-!
# What a running database has in memory

All that a shared database has in memory can be stored (`Running.Formed`), since it comes from typed
operations that went through the schemas of their tables, or has been decoded: the current view, the
views that are pinned, and the one that a checkpoint is made of.
-/

namespace EveDB

open Std Store

/-! ### Recovery and groups -/

namespace Store

/-- **What is recovered** can be stored if the manifest that was found is well-formed. -/
theorem openDatabase_formed {env : Env} {files : Root → Files} {options : Options}
    {dir dir' : Directory} {db : Database} (h : openDatabase env files options dir = .ok (db, dir'))
    (hroot : Catalog.Formed db.state.root.manifest.catalog) : db.state.Formed := by
  obtain ⟨_, -, h⟩ := bind_eq_ok.mp h
  obtain ⟨opened, hopened, heq⟩ := bind_eq_ok.mp h
  cases heq
  -- a record leaves the view alone, or is replayed
  have hrecord (root : Root) (s : Replay (engine (env.forRecovery options.limits) files options))
      (record : Frame) (s' : Replay (engine (env.forRecovery options.limits) files options))
      (hs : Catalog.Formed s.view.root.manifest.catalog → s.view.Formed)
      (hok : replayRecord root s record = .ok s')
      (hformed : Catalog.Formed s'.view.root.manifest.catalog) : s'.view.Formed := by
    unfold replayRecord at hok
    dsimp only at hok
    split at hok
    · cases hok
      exact hs hformed
    split at hok
    · cases hok
    split at hok
    · split at hok
      · cases hok
      · obtain ⟨view, hview, hok⟩ := bind_eq_ok.mp hok
        cases hok
        obtain ⟨operations, t, t', staging, -, -, -, -, heq⟩ := replayTransaction_result hview
        have hsame : view.root = s.view.root := by
          rw [heq]
          rfl
        exact ReadState.Formed.replayTransaction (hs (hsame ▸ hformed)) hview
    · cases hok
      exact hs hformed
  obtain ⟨s, hs, hview, -⟩ := openWithOptions_invariant hrecord (fun _ _ _ hs => hs)
    (fun root hformed => ⟨hformed, hformed, every_empty⟩) hopened
  change ReadState.Formed opened.view
  rw [← hview]
  exact hs (hview ▸ hroot)

/-- The catalog behind a group is one of those of its batches, or the one there was. -/
theorem Ready.catalog_of {P : Catalog → Prop} {env : Env} {root : Checkpoint} {tick lsn : ℕ}
    {ps : List (Prepared × ℕ)} {qs : List (Prepared × Bytes)} (h : Ready env root tick lsn ps qs)
    {db : Database} (hdb : P db.state.catalog) (hps : ∀ p ∈ ps, P p.1.catalog) :
    P (publishEach (qs.map Prod.fst) db).state.catalog := by
  induction h generalizing db with
  | nil => exact hdb
  | @cons lsn b b' frame ps qs hne hbase hawake hmax hframe hrebound rest ih =>
    obtain ⟨hhead, hps⟩ := List.forall_mem_cons.mp hps
    refine ih ?_ hps
    change P b'.catalog
    rw [hrebound.spec.2.catalog]
    exact hhead

end Store

namespace Running

variable {storage : Storage} {s s' : Running}

/-- What is known of a job. -/
def Making (work : Work) : Prop :=
  match work with
  | .building job | .installing job _ => job.state.Formed
  | _ => True

/-- **A database all of whose states can be stored.** -/
structure Formed (s : Running) : Prop where
  state : s.database.state.Formed
  tail : ∀ tail ∈ s.database.checkpointTail, Every (fun key data => data.Formed key.2) tail
  views : ∀ view ∈ s.views, view.Formed
  making : Making s.work
  roots : ∀ entry ∈ s.roots, Catalog.Formed entry.1.catalog

/-- **A group of typed batches** keeps it so. -/
theorem Formed.commit (h : s.Formed) (hsound : s.Sound) {call : CommitCall}
    {answers : List (Option (Result ℕ))} {db : Database}
    (hbatches : ∀ batch ∈ call.batches, ∃ view ∈ s.views, batch.HandedOver view)
    (htyped : ∀ batch ∈ call.batches, ∀ operation ∈ batch.operations, operation.Typed)
    (hcommit : call.run s.database = (answers, db)) :
    db.state.Formed ∧
      ∀ tail ∈ db.checkpointTail, Every (fun key data => data.Formed key.2) tail := by
  have hbase := hsound.base_le hbatches
  have hformed (batch : Store.Prepared) (hbatch : batch ∈ call.batches) :
      Catalog.Formed batch.catalog ∧ Every (fun key data => data.Formed key.2) batch.staged := by
    obtain ⟨view, hview, hover⟩ := hbatches batch hbatch
    exact hover.formed (h.views view hview) (htyped batch hbatch)
  have hevery : db.Every fun key data => data.Formed key.2 :=
    Database.Every.commit ⟨h.state.overlay, h.tail⟩ hsound.sharedMode hbase
      (fun _ _ _ _ hdata hrebind => hdata.rebind h.state.root hrebind)
      (fun _ _ _ _ hdata =>
        ⟨hdata.current, hdata.base, hdata.ordered, hdata.snapshots, hdata.source⟩)
      (fun batch hbatch => (hformed batch hbatch).2) hcommit
  refine ⟨?_, hevery.tail⟩
  rcases Database.commit_cases hsound.sharedMode hbase hcommit with
    ⟨wal, poisoned, rfl, -⟩ | ⟨tick, qs, hready, hstate, -⟩
  · exact h.state
  · refine ⟨?_, ?_, hevery.state⟩
    · rw [hstate]
      exact hready.catalog_of h.state.catalog fun p hp => (hformed p.1 (mem_of_committed hp)).1
    · rw [hstate, (hready.publishEach_spec rfl).1]
      exact h.state.root

/-- **Every step** keeps it so. -/
theorem Formed.step (h : s.Formed) (hsound : s.Sound) (hstep : Step storage s s') : s'.Formed := by
  cases hstep with
  | pin hopen =>
    refine { h with views := List.forall_mem_cons.mpr ⟨?_, h.views⟩ }
    exact hsound.published.symm ▸ h.state
  | release hviews =>
    refine { h with views := fun view hview => h.views view ?_ }
    rw [hviews]
    rcases List.mem_append.mp hview with hmem | hmem
    · exact List.mem_append_left _ hmem
    · exact List.mem_append_right _ (List.mem_cons_of_mem _ hmem)
  | commit hvalid haccepted hbatches htyped hcommit =>
    obtain ⟨hstate, htail⟩ := h.commit hsound hbatches htyped hcommit
    exact { h with state := hstate, tail := htail }
  | @capture sparse files compact job next db hidle hcapture =>
    obtain ⟨hstate, -, -, header, rfl⟩ := Database.captureCheckpoint_ok hcapture
    refine { h with tail := ?_, making := show job.state.Formed from hstate ▸ h.state }
    rintro _ ⟨⟩
    exact every_empty
  | captureFailed hidle hcapture =>
    rcases Database.captureCheckpoint_cases hcapture with ⟨_, _, hok, -⟩ | ⟨e, -, -, rfl | rfl, -⟩
    · cases hok
    · exact { h with }
    · exact { h with }
  | build hbuilding hbuild =>
    have hmaking := h.making
    rw [hbuilding] at hmaking
    exact { h with making := hmaking }
  | abandon hbuilding hleft =>
    refine { h with tail := ?_, making := trivial }
    rintro _ ⟨⟩
  | @install job root failure db hinstalling hinstall =>
    obtain ⟨tail, record, htail, rfl⟩ := Database.installCheckpoint_ok hinstall
    have hmaking := h.making
    have hworking := hsound.working
    rw [hinstalling] at hmaking hworking
    have hroot : Catalog.Formed root.manifest.catalog :=
      hworking.2.catalog_eq.symm ▸ hmaking.catalog
    refine ⟨⟨h.state.catalog, hroot, h.tail tail htail⟩, ?_, h.views, trivial,
      List.forall_mem_cons.mpr ⟨hroot, h.roots⟩⟩
    rintro _ ⟨⟩
  | installFailed hinstalling hinstall =>
    obtain ⟨wal, poisoned, rfl⟩ := Database.installCheckpoint_error hinstall
    exact { h with making := trivial }
  | sweep hinstalled => exact { h with making := trivial }
  | remove file hsweeping hfile => exact { h with }
  | swept hsweeping => exact { h with making := trivial }

/-- A database that has been opened has what was recovered. -/
theorem formed_opened {disk : Disk} {env : Env} {options : Options} {dir dir' : Directory}
    {db : Database} {next : ℕ} {roots : List (Root × Disk)} {replaced : Option Root}
    {opened : ReadState}
    (hopen : openDatabase env (fun root => (Checkpoint.ofDisk disk root).files) options dir =
      .ok (db, dir')) {held : Disk} (hroot : (db.state.root.manifest, held) ∈ roots)
    (hroots : ∀ entry ∈ roots, Catalog.Formed entry.1.catalog) :
    Formed
      { disk, database := { db with sharedMode := true }, nextGeneration := next
        coordinator := .new, work := .idle, views := [], roots, replaced, opened,
        written := [] } := by
  have hformed := openDatabase_formed hopen (hroots _ hroot)
  refine ⟨hformed, ?_, List.forall_mem_nil _, trivial, hroots⟩
  change ∀ tail ∈ db.checkpointTail, _
  rw [show db.checkpointTail = none from checkpointTail_open hopen]
  rintro _ ⟨⟩

/-- **All states of a shared database can be stored**, at all times. -/
theorem Reachable.formed (h : Reachable storage s) : s.Formed := by
  induction h with
  | @opened env options dir' db hopen =>
    have hmanifest : db.state.root.manifest = Root.empty := by
      rw [openDatabase_initial hopen]
    exact formed_opened hopen (List.mem_singleton.mpr (Prod.ext hmanifest rfl))
      (List.forall_mem_singleton.mpr Catalog.formed_empty)
  | step h hstep ih => exact ih.step h.sound hstep
  | reopened h hreopens ih =>
    obtain ⟨hleft, hopen, hroot, hverified, hnext⟩ := hreopens
    exact formed_opened hopen hroot ih.roots

end Running

end EveDB
