import EveDB.Running.Sound

/-!
# The files of a running database

A view reads files whenever it likes, and no lock is held while it does: what protects them is that
a cleanup keeps all files of the manifests which it finds named. Here is what this comes to.
Whatever a view in use names is in the directory as it was (`Running.needed_files_stay`), and so is
the manifest that has just been replaced, until another one is installed (`Running.baseline_stays`):
should the record of the new manifest be lost with the process, there is one to go back to.
-/

namespace EveDB

open Std Store Index Relation

/-- **The manifests a view names**: its own one, and those its entities in memory are bound to. -/
inductive Store.ReadState.Names (view : ReadState) : Checkpoint → Prop
  | root : view.Names view.root
  | bound {key : ℕ × ℕ} {data : EntityData} {source : DiskHistory}
      (hdata : view.overlay[key]? = some data) (hsource : source ∈ data.disk) :
      view.Names source.root

/-- What a view names is what it rests on. -/
theorem Store.ReadState.Rests.of_names {view : ReadState} {R : Checkpoint → Prop}
    {root : Checkpoint}
    (h : view.Rests R) (hnames : view.Names root) : R root := by
  cases hnames with
  | root => exact h.root
  | bound hdata hsource => exact (h.overlay _ _ hdata _ hsource).1

namespace Running

variable {storage : Storage} {s s' : Running}

/-- **The views in use**: the current one, those of snapshots and transactions, and the one that a
checkpoint is made of. -/
inductive Shows (s : Running) : ReadState → Prop
  | current : s.Shows s.database.state
  | published : s.Shows s.database.published
  | pinned {view : ReadState} (hview : view ∈ s.views) : s.Shows view
  | captured {job : Store.CheckpointJob} (hwork : s.work = .building job) : s.Shows job.state

/-- Whatever is in use rests on manifests that are anchored. -/
theorem Sound.shows (h : s.Sound) {view : ReadState} (hshows : s.Shows view) :
    view.Rests s.Anchored := by
  cases hshows with
  | current => exact h.rests.state
  | published => exact h.published.symm ▸ h.rests.state
  | pinned hview => exact (h.views view hview).2
  | captured hwork =>
    have hworking := h.working
    rw [hwork] at hworking
    exact hworking.rests

/-! ### The manifest that was replaced -/

/-- A manifest that is installed is newer than the current one. -/
theorem Sound.newer (h : s.Sound) {job : Store.CheckpointJob} {root : Checkpoint}
    (hinstalling : s.work = .installing job root) :
    s.database.state.root.manifest.generation < root.manifest.generation := by
  have hworking := h.working
  rw [hinstalling] at hworking
  obtain ⟨hjob, hcame⟩ := hworking
  rw [hcame.generation_eq, ← hjob.root]
  exact hjob.above

/-- **The generation of the manifest never decreases.** -/
theorem Sound.generation_le (h : s.Sound) (hstep : Step storage s s') :
    s.database.state.root.manifest.generation ≤ s'.database.state.root.manifest.generation := by
  cases hstep with
  | pin | release | build | abandon | sweep | remove | swept => exact le_rfl
  | commit hvalid haccepted hbatches htyped hcommit =>
    exact (h.moves hvalid haccepted hbatches hcommit).root.symm ▸ le_rfl
  | capture hidle hcapture =>
    obtain ⟨hstate, -, rfl, header, rfl⟩ := Database.captureCheckpoint_ok hcapture
    exact le_rfl
  | captureFailed hidle hcapture =>
    rcases Database.captureCheckpoint_cases hcapture with ⟨_, _, hok, -⟩ | ⟨e, -, -, rfl | rfl, -⟩
    · cases hok
    · exact le_rfl
    · exact le_rfl
  | install hinstalling hinstall =>
    obtain ⟨tail, record, htail, rfl⟩ := Database.installCheckpoint_ok hinstall
    exact (h.newer hinstalling).le
  | installFailed hinstalling hinstall =>
    obtain ⟨wal, poisoned, rfl⟩ := Database.installCheckpoint_error hinstall
    exact le_rfl

/-- What has been removed was not among these files, if they are kept. -/
theorem Recoverable.remove {root : Root} {keep : List FileId} {file : FileId}
    (h : s.Recoverable root) (hkeep : ∀ file ∈ root.fileIds, file ∈ keep) (hfile : file ∉ keep) :
    Recoverable { s with disk := Function.update s.disk file none } root := by
  obtain ⟨held, hheld, hstocked⟩ := h
  refine ⟨held, hheld, fun other hother => ?_⟩
  obtain ⟨bytes, hbytes, hdisk⟩ := hstocked other hother
  refine ⟨bytes, hbytes, (Function.update_of_ne ?_ _ _).trans hdisk⟩
  rintro rfl
  exact hfile (hkeep other hother)

/-- What has been added takes nothing away. -/
theorem Recoverable.added {root : Root} {disk : Disk} (h : s.Recoverable root)
    (hadded : ∀ file, disk file = s.disk file ∨ s.disk file = none) (work : Work) (db : Database) :
    Recoverable { s with disk, work, database := db } root := by
  obtain ⟨held, hheld, hstocked⟩ := h
  refine ⟨held, hheld, fun file hfile => ?_⟩
  obtain ⟨bytes, hbytes, hdisk⟩ := hstocked file hfile
  refine ⟨bytes, hbytes, (hadded file).elim (fun heq => heq.trans hdisk) fun hnone => ?_⟩
  rw [hnone] at hdisk
  cases hdisk

/-- **A manifest that has been replaced**, and nothing has been installed since: all its files are
there, and a cleanup keeps them. -/
structure Replaced (s : Running) (previous : Root) : Prop where
  recoverable : s.Recoverable previous
  installed : ∀ root state, s.work = .installed root state → root = previous
  sweeping : ∀ keep, s.work = .sweeping keep → ∀ file ∈ previous.fileIds, file ∈ keep

/-- It stays so while no other manifest takes the place of the current one. -/
theorem Replaced.step {previous : Root} (h : s.Replaced previous) (hsound : s.Sound)
    (hstep : Step storage s s')
    (hsame : s'.database.state.root.manifest.generation =
      s.database.state.root.manifest.generation) : s'.Replaced previous := by
  -- most steps leave the maintenance where it is, or with nothing to sweep
  have hidle {s' : Running} (hrecoverable : s'.Recoverable previous)
      (hinstalled : ∀ root state, s'.work ≠ .installed root state)
      (hsweeping : ∀ keep, s'.work ≠ .sweeping keep) : s'.Replaced previous :=
    ⟨hrecoverable, fun root state hwork => absurd hwork (hinstalled root state),
      fun keep hwork => absurd hwork (hsweeping keep)⟩
  cases hstep with
  | pin | release | commit | captureFailed => exact ⟨h.recoverable, h.installed, h.sweeping⟩
  | capture => exact hidle h.recoverable (by rintro _ _ ⟨⟩) (by rintro _ ⟨⟩)
  | build hbuilding hbuild =>
    obtain ⟨-, _, -, -, hbuilt⟩ := hsound.built hbuilding hbuild
    exact hidle (h.recoverable.added (fun file => (hbuilt.added file).imp id And.left) _ _)
      (by rintro _ _ ⟨⟩) (by rintro _ ⟨⟩)
  | abandon hbuilding hleft =>
    exact hidle (h.recoverable.added (fun file => (hleft file).imp id And.left) _ _)
      (by rintro _ _ ⟨⟩) (by rintro _ ⟨⟩)
  | install hinstalling hinstall =>
    -- the manifest that is installed is newer
    obtain ⟨tail, record, htail, rfl⟩ := Database.installCheckpoint_ok hinstall
    exact absurd hsame (hsound.newer hinstalling).ne'
  | installFailed => exact hidle h.recoverable (by rintro _ _ ⟨⟩) (by rintro _ ⟨⟩)
  | sweep hinstalled =>
    refine ⟨h.recoverable, by rintro _ _ ⟨⟩, ?_⟩
    rintro _ ⟨⟩ file hfile
    rw [← h.installed _ _ hinstalled] at hfile
    exact List.mem_append_left _ (List.mem_append_left _ hfile)
  | remove file hsweeping hfile =>
    exact ⟨h.recoverable.remove (h.sweeping _ hsweeping) hfile, h.installed, h.sweeping⟩
  | swept => exact hidle h.recoverable (by rintro _ _ ⟨⟩) (by rintro _ ⟨⟩)

/-- Steps lead from one state that can be reached to the next. -/
theorem Reachable.steps (h : Reachable storage s) (hsteps : ReflTransGen (Step storage) s s') :
    Reachable storage s' := by
  induction hsteps with
  | refl => exact h
  | tail _ hstep ih => exact ih.step hstep

/-- Since its generation never decreases, the manifest is the same all the time if it is at the
end. -/
theorem Replaced.steps {previous : Root} (h : s.Replaced previous)
    (hreachable : Reachable storage s)
    (hsteps : ReflTransGen (Step storage) s s') :
    s.database.state.root.manifest.generation ≤ s'.database.state.root.manifest.generation ∧
      (s'.database.state.root.manifest.generation = s.database.state.root.manifest.generation →
        s'.Replaced previous) := by
  induction hsteps with
  | refl => exact ⟨le_rfl, fun _ => h⟩
  | @tail s₁ s₂ hsteps hstep ih =>
    obtain ⟨hle, hstays⟩ := ih
    have hsound : s₁.Sound := (hreachable.steps hsteps).sound
    have hnext := hsound.generation_le hstep
    refine ⟨hle.trans hnext, fun hsame => ?_⟩
    exact (hstays (by omega)).step hsound hstep (by omega)

/-! ### What is in the directory -/

/-- **Whatever a view in use names is there.** In any state that a shared database can reach, all
files of every manifest that a view in use names (its own one, and those that its entities in memory
are bound to) are in the directory, with the contents from which the manifest is read. -/
theorem needed_files_stay (h : Reachable storage s) {view : ReadState} {root : Checkpoint}
    (hshows : s.Shows view) (hnames : view.Names root) :
    ∃ held, root = .ofDisk held root.manifest ∧ ∀ info ∈ root.manifest.files,
      ∃ bytes, held info.id = some bytes ∧ s.disk info.id = some bytes := by
  obtain ⟨held, hroot, hstocked⟩ := ((h.sound.shows hshows).of_names hnames).grounded.held
  exact ⟨held, hroot, fun info hinfo => hstocked info.id (List.mem_map_of_mem hinfo)⟩

/-- A view is pinned behind a first checkpoint, and needs the six files of its manifest while the
cleanup behind a second one is under way. -/
theorem needed_files_stay_pinned : ∃ (s : Running) (view : ReadState), Reachable Storage.vast s ∧
    view ∈ s.views ∧ (∃ keep, s.work = .sweeping keep) ∧
      view.root.manifest.generation < s.database.state.root.manifest.generation ∧
      view.root.manifest.files.length = 6 ∧ ∃ held, view.root = .ofDisk held view.root.manifest ∧
        ∀ info ∈ view.root.manifest.files,
          ∃ bytes, held info.id = some bytes ∧ s.disk info.id = some bytes := by
  obtain ⟨s, previous, state, view, h, hinstalled, -, hview, haged⟩ := exists_replaced
  have hswept := h.step (.sweep s hinstalled)
  exact ⟨_, view, hswept, hview, ⟨_, rfl⟩, haged.older, haged.files,
    needed_files_stay hswept (.pinned hview) .root⟩

/-- **The manifest that was replaced is kept** until the next one is installed: whatever comes in
between (commits, pins, the cleanup itself, a build that succeeds or fails), the directory has all
its files as they were when it was installed. -/
theorem baseline_stays (h : Reachable storage s) {previous : Root} {state : ReadState}
    (hinstalled : s.work = .installed previous state) (hsteps : ReflTransGen (Step storage) s s')
    (hsame : s'.database.state.root.manifest.generation =
      s.database.state.root.manifest.generation) :
    ∃ held, (previous, held) ∈ s'.roots ∧ ∀ info ∈ previous.files,
      ∃ bytes, held info.id = some bytes ∧ s'.disk info.id = some bytes := by
  have hworking := h.sound.working
  rw [hinstalled] at hworking
  have hreplaced : s.Replaced previous := by
    refine ⟨hworking.2, fun root state hwork => ?_, fun keep hwork => ?_⟩
    · rw [hinstalled] at hwork
      cases hwork
      rfl
    · rw [hinstalled] at hwork
      cases hwork
  obtain ⟨held, hheld, hstocked⟩ := ((hreplaced.steps h hsteps).2 hsame).recoverable
  exact ⟨held, hheld, fun info hinfo => hstocked info.id (List.mem_map_of_mem hinfo)⟩

/-- The manifest of a first checkpoint has six files, which are there while the cleanup behind a
second one is under way. -/
theorem baseline_stays_sweeping : ∃ (s : Running) (previous : Root), Reachable Storage.vast s ∧
    (∃ keep, s.work = .sweeping keep) ∧ previous.files.length = 6 ∧
      ∃ held, (previous, held) ∈ s.roots ∧ ∀ info ∈ previous.files,
        ∃ bytes, held info.id = some bytes ∧ s.disk info.id = some bytes := by
  obtain ⟨s, previous, state, view, h, hinstalled, hfiles, -⟩ := exists_replaced
  have hsweep : Step Storage.vast s { s with work := .sweeping (s.kept previous state) } :=
    .sweep s hinstalled
  exact ⟨_, previous, h.step hsweep, ⟨_, rfl⟩, hfiles,
    baseline_stays h hinstalled (.single hsweep) rfl⟩

end Running

end EveDB
