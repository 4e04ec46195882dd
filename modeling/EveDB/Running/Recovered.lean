import EveDB.Running.Commits
import EveDB.Store.Exclusive
import EveDB.Store.States

/-!
# How a running database begins, and what its maintenance does

What a capture takes along and what an installation does (`captureCheckpoint_ok`,
`installCheckpoint_ok`), and what a database has when it has been opened (`Recovered`): the manifest
that was found with its files, and in memory what the log has behind it.
-/

namespace EveDB

open Std Store

/-! ### What the sections do -/

namespace Store.Database

variable {db db' : Database} {sparse : Occupancy → Bool} {files : CaptureFiles} {compact : Bool}
  {nextGeneration next : ℕ} {job : CheckpointJob}

/-- **What a capture takes along.** -/
theorem captureCheckpoint_ok
    (h : db.captureCheckpoint sparse files compact nextGeneration = (.ok job, next, db')) :
    job.state = db.state ∧ job.generation = nextGeneration ∧ next = nextGeneration + 1 ∧
      ∃ header, db' = db.captured header := by
  unfold captureCheckpoint prepareCheckpoint at h
  dsimp only at h
  split at h
  · cases h
  split at h
  · cases h
  split at h
  · cases h
  next after hafter =>
  obtain ⟨rfl, -⟩ := checkedAdd_eq_some.mp hafter
  split at h
  · cases h
  · cases h
  split at h
  · cases h
  · cases h
  · cases h
    exact ⟨rfl, rfl, rfl, _, rfl⟩

variable {failure : Option (ℕ × String)} {root : Checkpoint} {frontier : ℕ}

/-- **What an installation that succeeds does.** -/
theorem installCheckpoint_ok
    (h : db.installCheckpoint failure root frontier = some (.ok (), db')) :
    ∃ tail record, db.checkpointTail = some tail ∧
      db' = db.installed root tail record frontier := by
  unfold installCheckpoint at h
  split at h
  · cases h
  split at h
  · cases h
  · cases h
  · obtain ⟨tail, htail, heq⟩ := Option.map_eq_some_iff.mp h
    cases heq
    exact ⟨tail, _, htail, rfl⟩

/-- And one that fails, which publishes nothing. -/
theorem installCheckpoint_error {e : Error}
    (h : db.installCheckpoint failure root frontier = some (.error e, db')) :
    ∃ wal poisoned, db' = { db with wal, poisoned } := by
  unfold installCheckpoint at h
  split at h
  · cases h
    exact ⟨_, _, rfl⟩
  split at h
  · cases h
    exact ⟨_, _, rfl⟩
  · cases h
    exact ⟨_, _, rfl⟩
  · obtain ⟨tail, -, heq⟩ := Option.map_eq_some_iff.mp h
    cases heq

end Store.Database

/-! ### Opening -/

namespace Store

/-- **A record that is replayed** takes a view on, by a transaction that keeps what every operation
keeps. -/
theorem replayTransaction_invariant {env : Env} {options : Options} {view view' : ReadState}
    {lsn : ℕ}
    {payload : Bytes} {I : Staging → Prop} (hI : Staging.Invariant env I)
    (hnew : ∀ s : Staging, s.base = view → s.catalog = view.catalog → s.staged = ∅ → I s)
    (h : replayTransaction env options view lsn payload = .ok view') :
    ∃ s, I s ∧ view' = (s.prepare none).publishView lsn view := by
  obtain ⟨operations, t, t', s, -, hstart, hreplay, hvalue, rfl⟩ := replayTransaction_result h
  refine ⟨s, replayOps_keeps hI (fun s₀ hs₀ => ?_) hreplay s hvalue, rfl⟩
  obtain ⟨hbase, hcatalog, hstaged⟩ := hstart s₀ hs₀
  exact hnew s₀ hbase hcatalog hstaged

/-- **A view that has been recovered**: it has the manifest that was found, with its files, and all
its tables, and what has been replayed rests on it. -/
structure Recovered (files : Root → Files) (view : ReadState) : Prop where
  root_eq : view.root = ⟨view.root.manifest, files view.root.manifest⟩
  catalog : ∀ table ∈ view.root.manifest.catalog, table ∈ view.catalog
  bounded : view.root.manifest.lsn ≤ maxU64 → view.lsn ≤ maxU64
  sources : Bound (fun source => source = view.root) view.overlay
  tables : OfTables view.catalog view.overlay

/-- A view that begins with nothing in memory. -/
theorem Recovered.load (files : Root → Files) (root : Root) :
    Recovered files ⟨⟨root, files root⟩, root.catalog, ∅, root.lsn⟩ :=
  ⟨rfl, fun _ h => h, fun h => h, every_empty, every_empty⟩

/-- **A transaction that is replayed** keeps it so. -/
theorem Recovered.replayTransaction {env : Env} {files : Root → Files} {options : Options}
    {view view' : ReadState} {lsn : ℕ} {payload : Bytes} (h : Recovered files view)
    (hlsn : lsn ≤ maxU64) (hok : replayTransaction env options view lsn payload = .ok view') :
    Recovered files view' ∧ view'.root = view.root ∧ view'.lsn = lsn := by
  obtain ⟨s, ⟨⟨-, hsources⟩, -, hsubset, htables⟩, rfl⟩ := replayTransaction_invariant
    ((bound_invariant (R := fun source => source = view.root) rfl h.sources env).and
      (@ofTables_invariant view env))
    (fun s hbase hcatalog hstaged => by
      rw [hcatalog, hstaged]
      exact ⟨⟨hbase, every_empty⟩, hbase, fun _ h => h, every_empty⟩) hok
  have hall : OfTables s.catalog view.overlay := h.tables.mono fun key _ hkey => hsubset key.1 hkey
  refine ⟨⟨h.root_eq, fun table htable => hsubset table (h.catalog table htable), fun _ => hlsn,
    ?_, ?_⟩, rfl, rfl⟩
  · exact h.sources.sealOver (Q := fun key data => ∀ source ∈ data.disk,
      source.root = view.root ∧ source.root.Has key) hsources fun _ _ hdata => hdata
  · exact hall.sealOver (Q := fun key _ => key.1 ∈ s.catalog) htables fun _ _ hkey => hkey

/-- A record of the log keeps it so. -/
theorem Recovered.replayRecord {env : Env} {files files' : Root → Files} {options : Options}
    {root : Root} {s s' : Replay (engine env files' options)} {record : Frame}
    (h : Recovered files s.view) (hok : replayRecord root s record = .ok s') :
    Recovered files s'.view := by
  unfold EveDB.replayRecord at hok
  dsimp only at hok
  split at hok
  · cases hok
    exact h
  split at hok
  · cases hok
  split at hok
  · split at hok
    · cases hok
    · next hnext =>
      -- the numbers of the records follow one another, and fit
      obtain ⟨heq, hmax⟩ := checkedAdd_eq_some.mp (not_not.mp hnext)
      obtain ⟨view, hview, hok⟩ := bind_eq_ok.mp hok
      cases hok
      exact (h.replayTransaction (heq ▸ hmax) hview).1
  · cases hok
    exact h

/-- What an opened database begins with. -/
theorem openDatabase_recovered {env : Env} {files : Root → Files} {options : Options}
    {dir dir' : Directory} {db : Database}
    (h : openDatabase env files options dir = .ok (db, dir')) :
    db.published = db.state ∧ Recovered files db.state := by
  obtain ⟨_, -, h⟩ := bind_eq_ok.mp h
  obtain ⟨opened, hopened, heq⟩ := bind_eq_ok.mp h
  cases heq
  obtain ⟨s, hs, hview, -⟩ := openWithOptions_invariant
    (fun _ (s : Replay (engine (env.forRecovery options.limits) files options)) _ _
      (hs : Recovered files s.view) hok => hs.replayRecord hok)
    (fun _ _ _ hs => hs) (Recovered.load files) hopened
  exact ⟨rfl, hview ▸ hs⟩

/-- A new directory is opened with the empty manifest. -/
theorem openDatabase_initial {env : Env} {files : Root → Files} {options : Options}
    {dir' : Directory} {db : Database}
    (h : openDatabase env files options initializeDirectory = .ok (db, dir')) :
    db.state = ⟨⟨Root.empty, files Root.empty⟩, Root.empty.catalog, ∅, Root.empty.lsn⟩ := by
  obtain ⟨_, -, h⟩ := bind_eq_ok.mp h
  obtain ⟨opened, hopened, heq⟩ := bind_eq_ok.mp h
  cases heq
  obtain ⟨o, ho, hview, -⟩ :=
    open_initial (engine (env.forRecovery options.limits) files options)
  rw [hopened] at ho
  cases ho
  exact hview

end Store

end EveDB
