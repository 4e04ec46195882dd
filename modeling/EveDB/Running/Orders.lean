import EveDB.Running.Recovered

/-!
# Running a database by orders

A shared database has a choice of steps at any time. Here it does what it is told (`Running.obey`):
views are pinned and released, checkpoints are captured, built and installed, and what is not needed
any more is removed. Nothing is refused, and no file fails. What orders lead to can be computed, and
is a state that a shared database can reach (`Running.Reachable.follow`).

So there is a database that has gone through two checkpoints with a table and an item
(`Running.exists_replaced`).
-/

namespace EveDB

open Std Store

/-- A file system that holds all files of less than eight pebibytes. -/
def Storage.vast : Storage where
  refuses _ bytes := if 2 ^ 53 ≤ bytes.length then some "File too large" else none
  bounded _ _ hlarge := by rw [if_pos hlarge]; rfl

namespace Store

/-- What the coordinator is told of a batch. -/
def Prepared.told (batch : Prepared) : EveDB.Prepared sequenceSemantics where
  id := 0
  base := ⟨batch.baseSequence, batch.baseSequence⟩
  keys := batch.keys
  changesCatalog := batch.changesCatalog
  isEmpty := batch.isEmpty
  payload := encodeOps batch.operations
  bytes := batch.reservation.bytes

theorem Prepared.represents_told (batch : Prepared) : batch.Represents batch.told :=
  ⟨rfl, rfl, rfl, rfl, rfl, rfl⟩

end Store

namespace Running

/-- **Orders.** -/
inductive Order
  | pin
  /-- The view that has been pinned last is released. -/
  | release
  /-- A batch is committed in a group of its own. -/
  | commit (batch : Store.Prepared)
  | capture (compact : Bool)
  | build
  | install
  | sweep
  | remove (file : FileId)
  | swept

/-- **Does what it is told**, if it can. -/
def obey (storage : Storage) (s : Running) : Order → Option Running
  | .pin =>
    if s.database.poisoned then none else some { s with views := s.database.published :: s.views }
  | .release =>
    match s.views with
    | [] => none
    | _ :: views => some { s with views }
  | .commit batch =>
    let call : CommitCall := ⟨Env.quiet Limits.default false, .done, 0, [batch]⟩
    let (answers, db) := call.run s.database
    match s.coordinator.validate s.database.poisoned false ∅ s.coordinator.catalogRevision
        batch.told with
    | .error _ => none
    | .ok () =>
      some
        { s with
          database := db
          coordinator := s.coordinator.record (answered [batch.told] answers)
          written := s.written ++ (committed [batch] answers).map Prod.fst }
  | .capture compact =>
    match s.work, s.database.captureCheckpoint (fun _ => false) ⟨none, none, none⟩ compact
        s.nextGeneration with
    | .idle, (.ok job, next, db) =>
      some { s with work := .building job, database := db, nextGeneration := next }
    | _, _ => none
  | .build =>
    match s.work with
    | .building job =>
      match (job.build storage s.disk none).result with
      | .ok (root, disk) => some { s with work := .installing job root, disk }
      | .error _ => none
    | _ => none
  | .install =>
    match s.work with
    | .installing job root =>
      match s.database.installCheckpoint none root job.walFrontierBytes with
      | some (.ok (), db) =>
        some
          { s with
            work := .installed s.database.state.root.manifest db.state
            database := db
            coordinator := s.coordinator.pruneRevisions (oldest { s with database := db })
            roots := (root.manifest, s.disk) :: s.roots
            replaced := some s.database.state.root.manifest }
      | _ => none
    | _ => none
  | .sweep =>
    match s.work with
    | .installed previous state => some { s with work := .sweeping (s.kept previous state) }
    | _ => none
  | .remove file =>
    match s.work with
    | .sweeping keep =>
      if file ∈ keep then none else some { s with disk := Function.update s.disk file none }
    | _ => none
  | .swept =>
    match s.work with
    | .sweeping _ => some { s with work := .idle }
    | _ => none

/-- Does what it is told, one order after the other. -/
def follow (storage : Storage) (s : Running) (orders : List Order) : Option Running :=
  orders.foldlM (obey storage) s

/-- What is committed has been handed over on one of the views. -/
def Allows (s : Running) (order : Order) : Prop :=
  ∀ batch, order = .commit batch → (∃ view ∈ s.views, batch.HandedOver view) ∧
    ∀ operation ∈ batch.operations, operation.Typed

variable {storage : Storage} {s s' : Running} {order : Order} {orders : List Order}

/-- A batch that is valid is accepted by itself. -/
theorem validateGroup_singleton {c : Coordinator} {poisoned : Bool}
    {p : EveDB.Prepared sequenceSemantics}
    (h : c.validate poisoned false ∅ c.catalogRevision p = .ok ()) :
    c.validateGroup poisoned (fun _ => false) ∅ c.catalogRevision [p] = ([p], []) := by
  rw [Coordinator.validateGroup, h]
  rfl

/-- **What it is told is a step.** -/
theorem obey_step (hallows : s.Allows order) (h : s.obey storage order = some s') :
    Step storage s s' := by
  cases order with
  | pin =>
    dsimp only [obey] at h
    split at h
    · cases h
    · next hopen =>
      cases h
      exact .pin s (Bool.eq_false_iff.mpr hopen)
  | release =>
    dsimp only [obey] at h
    split at h
    · cases h
    · next view views hviews =>
      cases h
      exact @Step.release storage s [] views view hviews
  | commit batch =>
    dsimp only [obey] at h
    split at h
    · cases h
    · next hvalid =>
      cases h
      obtain ⟨hview, htyped⟩ := hallows batch rfl
      refine @Step.commit storage s _ _ _ _ _ _ ⟨Env.quiet Limits.default false, .done, 0, [batch]⟩
        _ _ (validateGroup_singleton hvalid) (.cons batch.represents_told .nil) ?_ ?_ rfl
      · exact List.forall_mem_singleton.mpr hview
      · exact List.forall_mem_singleton.mpr htyped
  | capture compact =>
    dsimp only [obey] at h
    split at h
    · next hidle hcapture =>
      cases h
      exact .capture s hidle hcapture
    · cases h
  | build =>
    dsimp only [obey] at h
    split at h
    · next hbuilding =>
      split at h
      · next hbuild =>
        cases h
        exact .build s hbuilding hbuild
      · cases h
    · cases h
  | install =>
    dsimp only [obey] at h
    split at h
    · next hinstalling =>
      split at h
      · next hinstall =>
        cases h
        exact .install s hinstalling hinstall
      · cases h
    · cases h
  | sweep =>
    dsimp only [obey] at h
    split at h
    · next hinstalled =>
      cases h
      exact .sweep s hinstalled
    · cases h
  | remove file =>
    dsimp only [obey] at h
    split at h
    · next hsweeping =>
      split at h
      · cases h
      · next hfile =>
        cases h
        exact .remove s file hsweeping hfile
    · cases h
  | swept =>
    dsimp only [obey] at h
    split at h
    · next hsweeping =>
      cases h
      exact .swept s hsweeping
    · cases h

/-- **What orders lead to can be reached**, if they are allowed in any state. -/
theorem Reachable.follow (hs : Reachable storage s)
    (hallows : ∀ order ∈ orders, ∀ s : Running, s.Allows order)
    (h : s.follow storage orders = some s') : Reachable storage s' := by
  induction orders generalizing s with
  | nil =>
    cases h
    exact hs
  | cons order orders ih =>
    obtain ⟨hfirst, hrest⟩ := List.forall_mem_cons.mp hallows
    rw [Running.follow, List.foldlM_cons] at h
    obtain ⟨s₁, hstep, h⟩ := Option.bind_eq_some_iff.mp h
    exact ih (hs.step (obey_step (hfirst s) hstep)) hrest h

/-- Orders without a commit are allowed in any state. -/
theorem allows_of_ne_commit (h : ∀ order ∈ orders, ∀ batch, order ≠ .commit batch) :
    ∀ order ∈ orders, ∀ s : Running, s.Allows order :=
  fun order horder _ batch heq => absurd heq (h order horder batch)

/-! ### A database with an item -/

/-- The files of a manifest in a directory without files. -/
def noFiles : Files := (Checkpoint.ofDisk (fun _ => none) Root.empty).files

/-- A new directory is opened, a view is pinned, and what has been staged on it is committed. -/
def first : Option Running :=
  match openDatabase (Env.quiet Limits.default false)
      (fun root => (Checkpoint.ofDisk (fun _ => none) root).files) Options.default
      initializeDirectory with
  | .error _ => none
  | .ok (db, _) =>
    follow Storage.vast
      { disk := fun _ => none
        database := { db with sharedMode := true }
        nextGeneration := 1
        coordinator := .new
        work := .idle
        views := []
        roots := [(Root.empty, fun _ => none)]
        replaced := none
        opened := db.state
        written := [] } [.pin, .commit (firstBatch noFiles)]

theorem reachable_first (h : first = some s) : Reachable Storage.vast s := by
  unfold first at h
  split at h
  · cases h
  next db dir hopen =>
  rw [Running.follow, List.foldlM_cons] at h
  obtain ⟨s₁, hpin, h⟩ := Option.bind_eq_some_iff.mp h
  obtain ⟨s₂, hcommit, h⟩ := Option.bind_eq_some_iff.mp h
  cases h
  have hviews : ∃ view ∈ s₁.views, (firstBatch noFiles).HandedOver view := by
    dsimp only [obey] at hpin
    split at hpin
    · cases hpin
    · cases hpin
      refine ⟨db.published, List.mem_cons_self, ?_⟩
      have hview : db.published = emptyView noFiles :=
        (openDatabase_recovered hopen).1.trans (openDatabase_initial hopen)
      exact hview ▸ handedOver_firstBatch noFiles
  have htyped : ∀ operation ∈ (firstBatch noFiles).operations, operation.Typed := by
    decide +kernel
  have hpinned := (Reachable.opened hopen).step (obey_step (by rintro batch ⟨⟩) hpin)
  refine hpinned.step (obey_step ?_ hcommit)
  rintro batch ⟨⟩
  exact ⟨hviews, htyped⟩

/-- Two checkpoints are taken, and a view is pinned behind each of them. -/
def checkpoints : List Order :=
  [.pin, .capture false, .build, .install, .sweep, .swept, .pin, .capture false, .build, .install]

/-- What is replaced, and the view that was pinned last. -/
def replacing (s : Running) : Option (Root × ReadState) :=
  match s.work, s.views with
  | .installed previous _, view :: _ => some (previous, view)
  | _, _ => none

/-- What a batch has staged of the item: its version, whether it is deleted, and its name. -/
def itemOf (batch : Store.Prepared) : Option (ℕ × Bool × Option Value) :=
  batch.staged[((1, 7) : ℕ × ℕ)]?.map fun data =>
    (data.current.version, data.current.deleted, data.current.fields[1]?)

/-- A view has the item in its manifest, and another manifest is the current one. -/
structure Aged (s : Running) (view : ReadState) : Prop where
  files : view.root.manifest.files.length = 6
  older : view.root.manifest.generation < s.database.state.root.manifest.generation
  item : (tally view.root.manifest.occupancy 1 0).entities = 1
  kept : (tally s.database.state.root.manifest.occupancy 1 0).entities = 1
  table : 1 ∈ view.catalog
  lsn : view.lsn = 1
  opened : s.opened.lsn = 0
  written : s.written.map itemOf = [some (1, false, some (.text "b"))]

instance (s : Running) (view : ReadState) : Decidable (s.Aged view) :=
  decidable_of_iff (view.root.manifest.files.length = 6 ∧
    view.root.manifest.generation < s.database.state.root.manifest.generation ∧
    (tally view.root.manifest.occupancy 1 0).entities = 1 ∧
    (tally s.database.state.root.manifest.occupancy 1 0).entities = 1 ∧ 1 ∈ view.catalog ∧
    view.lsn = 1 ∧ s.opened.lsn = 0 ∧
    s.written.map itemOf = [some (1, false, some (.text "b"))])
    ⟨fun ⟨h₁, h₂, h₃, h₄, h₅, h₆, h₇, h₈⟩ => ⟨h₁, h₂, h₃, h₄, h₅, h₆, h₇, h₈⟩,
      fun ⟨h₁, h₂, h₃, h₄, h₅, h₆, h₇, h₈⟩ => ⟨h₁, h₂, h₃, h₄, h₅, h₆, h₇, h₈⟩⟩

/-- What is made of a checkpoint that has been captured. -/
def making (s : Running) : Option (Store.CheckpointJob × Checkpoint × Disk) :=
  match s.work with
  | .building job => (job.build Storage.vast s.disk none).result.toOption.map fun built =>
    (job, built)
  | _ => none

theorem making_eq_some {job : Store.CheckpointJob} {built : Checkpoint × Disk}
    (h : s.making = some (job, built)) :
    s.work = .building job ∧ (job.build Storage.vast s.disk none).result = .ok built := by
  unfold making at h
  split at h
  · next job' hwork =>
    obtain ⟨built', hbuilt, heq⟩ := Option.map_eq_some_iff.mp h
    cases heq
    refine ⟨hwork, ?_⟩
    generalize (job.build Storage.vast s.disk none).result = r at hbuilt
    rcases r with e | built
    · cases hbuilt
    · cases hbuilt
      rfl
  · cases h

theorem replacing_eq_some {previous : Root} {view : ReadState}
    (h : s.replacing = some (previous, view)) :
    (∃ state, s.work = .installed previous state) ∧ view ∈ s.views := by
  unfold replacing at h
  split at h
  · next hwork hviews =>
    cases h
    exact ⟨⟨_, hwork⟩, hviews ▸ List.mem_cons_self⟩
  · cases h

/-- The first checkpoint is captured on a directory without files and has six of them, and the
orders go on to where it is replaced. What the first build comes to is computed once for both. -/
theorem checkpoints_run : ((first.bind fun s => s.follow Storage.vast (checkpoints.take 2)).any
    fun s => (s.database.state.root.manifest.files.length = 0 ∧ s.replaced.isNone ∧
        s.making.any fun p => p.2.1.manifest.files.length = 6 ∧ p.1.state.lsn = 1) ∧
      (s.follow Storage.vast (checkpoints.drop 2)).any fun s =>
        s.replacing.any fun p => p.1.files.length = 6 ∧ s.Aged p.2) = true := by
  decide +kernel

/-- A database with an item is where the first checkpoint has been captured. -/
theorem reachable_captured
    (h : (first.bind fun s => s.follow Storage.vast (checkpoints.take 2)) = some s) :
    Reachable Storage.vast s := by
  obtain ⟨s₀, hfirst, hfollow⟩ := Option.bind_eq_some_iff.mp h
  exact (reachable_first hfirst).follow (allows_of_ne_commit (by simp [checkpoints])) hfollow

/-- **A database with an item** captures its first checkpoint. -/
theorem exists_captured : ∃ (s : Running) (job : Store.CheckpointJob) (root : Checkpoint)
    (disk : Disk), Reachable Storage.vast s ∧ s.work = .building job ∧
      (job.build Storage.vast s.disk none).result = .ok (root, disk) ∧
      root.manifest.files.length = 6 ∧ job.state.lsn = 1 ∧
      s.database.state.root.manifest.files = [] ∧ s.replaced = none := by
  obtain ⟨s, hs, hfacts⟩ := (Option.any_eq_true _ _).mp checkpoints_run
  obtain ⟨⟨hnone, hreplaced, hmaking⟩, -⟩ := of_decide_eq_true hfacts
  obtain ⟨⟨job, root, disk⟩, hmaking, hfacts⟩ := (Option.any_eq_true _ _).mp hmaking
  obtain ⟨hfiles, hlsn⟩ := of_decide_eq_true hfacts
  obtain ⟨hbuilding, hbuild⟩ := making_eq_some hmaking
  exact ⟨s, job, root, disk, reachable_captured hs, hbuilding, hbuild, hfiles, hlsn,
    List.length_eq_zero_iff.mp hnone, Option.isNone_iff_eq_none.mp hreplaced⟩

/-- **A database with an item** goes through two checkpoints. -/
theorem exists_replaced : ∃ (s : Running) (previous : Root) (state view : ReadState),
    Reachable Storage.vast s ∧ s.work = .installed previous state ∧ previous.files.length = 6 ∧
      view ∈ s.views ∧ s.Aged view := by
  obtain ⟨s₁, hs₁, hfacts⟩ := (Option.any_eq_true _ _).mp checkpoints_run
  obtain ⟨-, hrest⟩ := of_decide_eq_true hfacts
  obtain ⟨s, hs, hreplacing⟩ := (Option.any_eq_true _ _).mp hrest
  obtain ⟨⟨previous, view⟩, hreplacing, hfacts⟩ := (Option.any_eq_true _ _).mp hreplacing
  have hreachable : Reachable Storage.vast s :=
    (reachable_captured hs₁).follow (allows_of_ne_commit (by simp [checkpoints])) hs
  obtain ⟨⟨state, hwork⟩, hview⟩ := replacing_eq_some hreplacing
  obtain ⟨hfiles, haged⟩ := of_decide_eq_true hfacts
  exact ⟨s, previous, state, view, hreachable, hwork, hfiles, hview, haged⟩

end Running

end EveDB
