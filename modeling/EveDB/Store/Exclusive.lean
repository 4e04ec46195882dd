import EveDB.Store.Aborted
import EveDB.Store.GroupCommit
import EveDB.Store.Maintenance

/-!
# One job at a time

Whoever has raised the flag of the maintenance is alone with it until the guard is dropped
(`SharedDatabase.Owned`), so that a job meets no other one from its capture to its cleanup. There is
a tail as long as a captured job is neither installed nor abandoned (`SharedDatabase.Tailed`), and
unless a write has failed there is no other reason for one: the next capture finds none.

A job that fails before its root is published leaves the database as the commits alone would have
left it (`SharedDatabase.maintenance_exclusive`).
-/

namespace EveDB.Store

/-! ### What the sections do -/

namespace Database

variable {db db' : Database} {files : CaptureFiles} {sparse : Occupancy → Bool} {compact : Bool}
  {nextGeneration next : ℕ} {r : Result CheckpointJob}

/-- **What a capture does.** It starts a tail under a fresh generation, or fails and leaves the
database alone, or poisons it. -/
theorem captureCheckpoint_cases
    (h : db.captureCheckpoint sparse files compact nextGeneration = (r, next, db')) :
    (∃ job header, r = .ok job ∧ db.poisoned = false ∧ db.checkpointTail = none ∧
      Frame.encode 1 db.state.root.manifest.lsn db.state.root.manifest.encode = .ok header ∧
      job.generation = nextGeneration ∧ next = nextGeneration + 1 ∧ db' = db.captured header) ∨
    ∃ e, r = .error e ∧ nextGeneration ≤ next ∧ (db' = db ∨ db' = { db with poisoned := true }) ∧
      (e = .invalid "maintenance already running" → db.checkpointTail.isSome) := by
  have hother {e : Error} (hne : e ≠ .invalid "maintenance already running") :
      e = .invalid "maintenance already running" → db.checkpointTail.isSome :=
    fun heq => absurd heq hne
  unfold captureCheckpoint prepareCheckpoint at h
  dsimp only at h
  split at h
  · cases h
    exact Or.inr ⟨_, rfl, le_rfl, Or.inl rfl, hother Error.noConfusion⟩
  next hopen =>
  split at h
  · next hrunning =>
    cases h
    exact Or.inr ⟨_, rfl, le_rfl, Or.inl rfl, fun _ => hrunning⟩
  next hfree =>
  split at h
  · cases h
    exact Or.inr ⟨_, rfl, le_rfl, Or.inl rfl, hother (by decide)⟩
  next after hafter =>
  obtain ⟨rfl, -⟩ := checkedAdd_eq_some.mp hafter
  have hle : nextGeneration ≤ nextGeneration + 1 := Nat.le_succ _
  split at h
  · cases h
    exact Or.inr ⟨_, rfl, hle, Or.inl rfl, hother Error.noConfusion⟩
  · cases h
    exact Or.inr ⟨_, rfl, hle, Or.inl rfl, hother Error.noConfusion⟩
  split at h
  · next e hencode =>
    cases h
    refine Or.inr ⟨_, rfl, hle, Or.inr rfl, fun heq => ?_⟩
    unfold Frame.encode at hencode
    split at hencode
    · cases hencode
      exact absurd heq (by decide)
    · cases hencode
  · cases h
    exact Or.inr ⟨_, rfl, hle, Or.inr rfl, hother Error.noConfusion⟩
  · next header hencode _ =>
    cases h
    exact Or.inl ⟨_, header, rfl, Bool.eq_false_iff.mpr hopen,
      Option.not_isSome_iff_eq_none.mp hfree, hencode, rfl, rfl, rfl⟩

/-- **What an installation does.** -/
theorem installCheckpoint_cases {failure : Option (ℕ × String)} {root : Checkpoint}
    {frontier : ℕ} {r : Result Unit} {bytes : Bytes}
    (hbytes : Frame.encode 1 root.manifest.lsn root.manifest.encode = .ok bytes)
    (h : db.installCheckpoint failure root frontier = some (r, db')) :
    (∃ tail, r = .ok () ∧ db.poisoned = false ∧ db.checkpointTail = some tail ∧
      db' = db.installed root tail bytes frontier) ∨
    ∃ e written, r = .error e ∧
      db' = { db with wal := db.wal ++ written, poisoned := true } := by
  unfold installCheckpoint at h
  rw [hbytes] at h
  split at h
  · next hpoisoned =>
    cases h
    refine Or.inr ⟨_, [], rfl, ?_⟩
    rw [List.append_nil, ← hpoisoned]
  next hopen =>
  split at h
  · next heq => cases heq
  · next heq =>
    cases heq
    cases h
    exact Or.inr ⟨_, _, rfl, rfl⟩
  · next heq =>
    cases heq
    obtain ⟨tail, htail, heq⟩ := Option.map_eq_some_iff.mp h
    cases heq
    exact Or.inl ⟨tail, rfl, Bool.eq_false_iff.mpr hopen, htail, rfl⟩

/-- A capture is a step of the maintenance, if it does anything. -/
theorem captureCheckpoint_maintains
    (h : db.captureCheckpoint sparse files compact nextGeneration = (r, next, db')) :
    Relation.ReflTransGen Maintains db db' := by
  rcases captureCheckpoint_cases h with
    ⟨job, header, -, hopen, hfree, hheader, -, -, rfl⟩ | ⟨e, -, -, rfl | rfl, -⟩
  · exact .single (.capture hopen hfree hheader)
  · exact .refl
  · have hfail : Maintains db { db with wal := db.wal ++ [], poisoned := true } := .fail []
    rw [List.append_nil] at hfail
    exact .single hfail

/-- So is an installation. -/
theorem installCheckpoint_maintains {failure : Option (ℕ × String)} {root : Checkpoint}
    {frontier : ℕ} {r : Result Unit} {bytes : Bytes}
    (hbytes : Frame.encode 1 root.manifest.lsn root.manifest.encode = .ok bytes)
    (h : db.installCheckpoint failure root frontier = some (r, db')) :
    Relation.ReflTransGen Maintains db db' := by
  rcases installCheckpoint_cases hbytes h with ⟨tail, -, hopen, htail, rfl⟩ | ⟨e, written, -, rfl⟩
  · exact .single (.install hopen htail hbytes)
  · exact .single (.fail written)

end Database

/-- What has been opened has no tail. -/
theorem checkpointTail_open {env : Env} {files : Root → Files} {options : Options}
    {dir dir' : Directory} {db : Database}
    (h : openDatabase env files options dir = .ok (db, dir')) : db.checkpointTail = none := by
  obtain ⟨_, -, h⟩ := bind_eq_ok.mp h
  obtain ⟨opened, -, heq⟩ := bind_eq_ok.mp h
  cases heq
  rfl

/-- **A root that is built fits a frame**, since it has been written to the catalog. -/
theorem CheckpointJob.finish_ok {job : CheckpointJob} {failure : Option String}
    {root root' : Checkpoint} (h : job.finish failure root = .ok root') :
    root' = root ∧ ∃ bytes, Frame.encode 1 root.manifest.lsn root.manifest.encode = .ok bytes := by
  unfold finish at h
  obtain ⟨_, -, h⟩ := bind_eq_ok.mp h
  obtain ⟨_, -, h⟩ := bind_eq_ok.mp h
  obtain ⟨bytes, hencode, h⟩ := bind_eq_ok.mp h
  refine ⟨?_, ?_⟩
  · cases failure with
    | none =>
      cases h
      rfl
    | some message => cases h
  · unfold Frame.encode at hencode ⊢
    split at hencode
    · cases hencode
    · next hfits =>
      rw [if_neg hfits]
      exact ⟨_, rfl⟩

/-! ### What the commits alone do -/

/-- A database is another one but for the log and the tail. -/
def Database.Agrees (db db' : Database) : Prop :=
  ∃ wal tail, db' = { db with wal, checkpointTail := tail }

namespace Database.Agrees

variable {db₁ db₂ db₃ : Database}

theorem refl (db : Database) : db.Agrees db := ⟨_, _, rfl⟩

theorem trans (h : db₁.Agrees db₂) (h' : db₂.Agrees db₃) : db₁.Agrees db₃ := by
  obtain ⟨wal, tail, rfl⟩ := h
  obtain ⟨wal', tail', rfl⟩ := h'
  exact ⟨wal', tail', rfl⟩

/-- Batches are published the same way, under the same answers. -/
theorem publishAll (h : db₁.Agrees db₂) (lsn : ℕ) (ms : List Member) :
    (publishAll lsn ms db₁).1 = (publishAll lsn ms db₂).1 ∧
      (publishAll lsn ms db₁).2.Agrees (publishAll lsn ms db₂).2 := by
  induction ms generalizing lsn db₁ db₂ with
  | nil => exact ⟨rfl, h⟩
  | cons m ms ih =>
    rw [Store.publishAll, Store.publishAll]
    split
    · have hpublish : (m.batch.publishState (lsn + 1) db₁).Agrees
          (m.batch.publishState (lsn + 1) db₂) := by
        obtain ⟨wal, tail, rfl⟩ := h
        exact ⟨_, _, rfl⟩
      obtain ⟨hanswers, hdb⟩ := ih hpublish (lsn + 1)
      exact ⟨congrArg (_ :: ·) hanswers, hdb⟩
    · obtain ⟨hanswers, hdb⟩ := ih h lsn
      exact ⟨congrArg (_ :: ·) hanswers, hdb⟩

theorem writeGroup (h : db₁.Agrees db₂) (write : WalWrite) (frames : List Bytes)
    (ms : List Member) :
    (writeGroup write frames ms db₁).1 = (writeGroup write frames ms db₂).1 ∧
      (writeGroup write frames ms db₁).2.Agrees (writeGroup write frames ms db₂).2 := by
  obtain ⟨wal, tail, rfl⟩ := h
  unfold Store.writeGroup
  dsimp only
  split
  · exact ⟨rfl, _, _, rfl⟩
  split
  · exact ⟨rfl, _, _, rfl⟩
  split
  · exact ⟨rfl, _, _, rfl⟩
  · obtain ⟨hanswers, wal', tail', heq⟩ := @publishAll
      { db₁ with wal := db₁.wal ++ frames.flatten,
                 walBytes := wrappingAdd db₁.walBytes (frames.map List.length).sum }
      { db₁ with wal := wal ++ frames.flatten,
                 walBytes := wrappingAdd db₁.walBytes (frames.map List.length).sum
                 checkpointTail := tail } ⟨_, _, rfl⟩ db₁.state.lsn ms
    refine ⟨hanswers, wal', tail', ?_⟩
    dsimp only
    rw [heq]

/-- **A group is committed the same way**, when no checkpoint is taken on the way. -/
theorem commit (h : db₁.Agrees db₂) (hshared : db₁.sharedMode = true) (call : CommitCall) :
    (call.run db₁).1 = (call.run db₂).1 ∧ (call.run db₁).2.Agrees (call.run db₂).2 := by
  obtain ⟨wal, tail, rfl⟩ := h
  obtain ⟨wal₁, walBytes, sharedMode, tail₁, state, published, poisoned, options⟩ := db₁
  obtain rfl : sharedMode = true := hshared
  unfold CommitCall.run commitGroup
  dsimp only
  split
  · exact ⟨rfl, _, _, rfl⟩
  rw [if_neg (fun h => h.1 rfl), if_neg (fun h => h.1 rfl)]
  dsimp only
  split
  · exact ⟨rfl, _, _, rfl⟩
  split
  · exact ⟨rfl, _, _, rfl⟩
  · exact ⟨rfl, _, _, rfl⟩
  · next frames ms _ =>
    obtain ⟨hanswers, hdb⟩ := @writeGroup
      ⟨wal₁, walBytes, true, tail₁, state, published, poisoned, options⟩
      ⟨wal, walBytes, true, tail, state, published, poisoned, options⟩ ⟨_, _, rfl⟩
      call.write frames ms
    exact ⟨congrArg (List.map Member.answer) hanswers, hdb⟩

end Database.Agrees

/-- A poisoned database is left alone by a commit. -/
theorem CommitCall.run_poisoned (call : CommitCall) {db : Database} (h : db.poisoned = true) :
    (call.run db).2 = db := by
  unfold run commitGroup
  dsimp only
  rw [if_pos (Or.inl h)]

/-- A commit neither starts nor drops a tail. -/
theorem CommitCall.run_keeps (call : CommitCall) (db : Database) :
    (call.run db).2.sharedMode = db.sharedMode ∧
      (call.run db).2.checkpointTail.isSome = db.checkpointTail.isSome := by
  refine commitGroup_keeps
    (I := fun d => d.sharedMode = db.sharedMode ∧
      d.checkpointTail.isSome = db.checkpointTail.isSome) (B := fun _ => True)
    (fun _ h => h) (fun _ _ _ _ _ => trivial) (fun _ _ _ => trivial) (fun _ _ _ _ h => h)
    (fun b n d _ _ h => ⟨h.1, ?_⟩) (fun _ h => h) (Prod.eta _).symm (fun _ _ => trivial)
    ⟨rfl, rfl⟩
  rw [← h.2]
  exact Option.isSome_map

/-- **What the commits of a run alone make of a database.** -/
def replay : List Milestone → Database → Database
  | [], db => db
  | .committed call :: ms, db => replay ms (call.run db).2
  | _ :: ms, db => replay ms db

theorem replay_append (ms ms' : List Milestone) (db : Database) :
    replay (ms ++ ms') db = replay ms' (replay ms db) := by
  induction ms generalizing db with
  | nil => rfl
  | cons m ms ih =>
    cases m with
    | committed call => exact ih (call.run db).2
    | captured g => exact ih db
    | installed g => exact ih db
    | abandoned g => exact ih db

/-! ### What is outstanding -/

/-- The generation a milestone is about. -/
def Milestone.generation : Milestone → Option ℕ
  | .captured generation => some generation
  | .installed generation => some generation
  | .abandoned generation => some generation
  | .committed _ => none

/-- A captured generation that is neither installed nor abandoned. -/
def Outstanding (ms : List Milestone) (generation : ℕ) : Prop :=
  .captured generation ∈ ms ∧ .installed generation ∉ ms ∧ .abandoned generation ∉ ms

/-- A commit does not change what is outstanding. -/
theorem outstanding_commit {ms : List Milestone} {call : CommitCall} {g : ℕ} :
    Outstanding (ms ++ [.committed call]) g ↔ Outstanding ms g := by
  simp [Outstanding]

/-- A generation that is installed or abandoned is not outstanding any more. -/
theorem outstanding_end {ms : List Milestone} {m : Milestone} {g g' : ℕ}
    (hm : m = .installed g ∨ m = .abandoned g) :
    Outstanding (ms ++ [m]) g' ↔ Outstanding ms g' ∧ g' ≠ g := by
  rcases hm with rfl | rfl
  · simp only [Outstanding, List.mem_append, List.mem_singleton, reduceCtorEq, or_false,
      Milestone.installed.injEq, not_or]
    tauto
  · simp only [Outstanding, List.mem_append, List.mem_singleton, reduceCtorEq, or_false,
      Milestone.abandoned.injEq, not_or]
    tauto

/-! ### Who has raised the flag -/

/-- The thread has raised the flag. -/
def Activity.Owns : Activity → Prop
  | .spawning _ _ => True
  | .working _ _ => True
  | _ => False

/-- The generation the thread has captured, as long as it has not come to an end. -/
def Activity.job : Activity → Option ℕ
  | .working _ (.building job) => some job.generation
  | .working _ (.abandoning generation _) => some generation
  | .working _ (.installing job _) => some job.generation
  | _ => none

/-- The thread is between the start of a capture and the end of its cleanup. -/
def Activity.InJob : Activity → Prop
  | .working _ (.capturing _) => True
  | .working _ (.building _) => True
  | .working _ (.abandoning _ _) => True
  | .working _ (.installing _ _) => True
  | .working _ .cleaning => True
  | _ => False

theorem Activity.InJob.owns {a : Activity} (h : a.InJob) : a.Owns := by
  cases a with
  | working runner phase => trivial
  | _ => exact h.elim

theorem Activity.owns_of_job {a : Activity} (h : a.job.isSome) : a.Owns := by
  cases a with
  | working runner phase => trivial
  | _ => exact absurd h Bool.false_ne_true

namespace SharedDatabase

variable {s s' : SharedDatabase} {ms new : List Milestone} {t : ℕ}

/-- **The flag is up when a thread has raised it, and only one has.** -/
structure Owned (s : SharedDatabase) : Prop where
  running : s.running = true ↔ ∃ t, (s.activity t).Owns
  alone : {t | (s.activity t).Owns}.Subsingleton

@[simp] theorem enter_self (a : Activity) : (s.enter t a).activity t = a := by
  unfold enter
  exact Function.update_self t a s.activity

theorem enter_of_ne {t' : ℕ} (h : t' ≠ t) (a : Activity) :
    (s.enter t a).activity t' = s.activity t' := by
  unfold enter
  exact Function.update_of_ne h a s.activity

/-- A thread that goes on keeps the flag as it is. -/
theorem Owned.enter (h : s.Owned) {a : Activity} (howns : a.Owns ↔ (s.activity t).Owns) :
    (s.enter t a).Owned := by
  have hall (t' : ℕ) : ((s.enter t a).activity t').Owns ↔ (s.activity t').Owns := by
    by_cases ht : t' = t
    · rw [ht, enter_self]
      exact howns
    · rw [enter_of_ne ht]
  refine ⟨h.running.trans (exists_congr fun t' => (hall t').symm), ?_⟩
  intro t₁ h₁ t₂ h₂
  exact h.alone ((hall t₁).mp h₁) ((hall t₂).mp h₂)

/-- A thread raises the flag when it is down. -/
theorem Owned.raise (h : s.Owned) (hrunning : s.running = false) {a : Activity} (howns : a.Owns)
    (hs' : s'.activity = (s.enter t a).activity) (hup : s'.running = true) : s'.Owned := by
  have hnone (t' : ℕ) : ¬ (s.activity t').Owns := fun h' =>
    Bool.eq_false_iff.mp hrunning (h.running.mpr ⟨t', h'⟩)
  have honly {t' : ℕ} (h' : (s'.activity t').Owns) : t' = t := by
    by_contra hne
    rw [hs', enter_of_ne hne] at h'
    exact hnone t' h'
  refine ⟨⟨fun _ => ⟨t, ?_⟩, fun _ => hup⟩, fun t₁ h₁ t₂ h₂ => (honly h₁).trans (honly h₂).symm⟩
  rw [hs', enter_self]
  exact howns

/-- The thread that has raised it takes it down. -/
theorem Owned.lower (h : s.Owned) (howns : (s.activity t).Owns) {a : Activity} (hnot : ¬ a.Owns)
    (hs' : s'.activity = (s.enter t a).activity) (hdown : s'.running = false) : s'.Owned := by
  have hnone (t' : ℕ) : ¬ (s'.activity t').Owns := by
    intro h'
    by_cases ht : t' = t
    · rw [hs', ht, enter_self] at h'
      exact hnot h'
    · rw [hs', enter_of_ne ht] at h'
      exact ht (h.alone h' howns)
  refine ⟨⟨fun hup => ?_, fun ⟨t', h'⟩ => absurd h' (hnone t')⟩, fun t₁ h₁ => absurd h₁ (hnone t₁)⟩
  rw [hdown] at hup
  exact absurd hup Bool.false_ne_true

/-- It hands it on to the thread it spawns. -/
theorem Owned.hand (h : s.Owned) {runner : ℕ} (howns : (s.activity t).Owns) {a a' : Activity}
    (hnot : ¬ a.Owns) (howns' : a'.Owns) :
    ((s.enter t a).enter runner a').Owned := by
  have honly {t' : ℕ} (h' : (((s.enter t a).enter runner a').activity t').Owns) : t' = runner := by
    by_contra hne
    rw [enter_of_ne hne] at h'
    by_cases ht : t' = t
    · rw [ht, enter_self] at h'
      exact hnot h'
    · rw [enter_of_ne ht] at h'
      exact ht (h.alone h' howns)
  refine ⟨⟨fun _ => ⟨runner, ?_⟩, fun _ => h.running.mpr ⟨t, howns⟩⟩,
    fun t₁ h₁ t₂ h₂ => (honly h₁).trans (honly h₂).symm⟩
  rw [enter_self]
  exact howns'

/-- What the flag depends on. -/
theorem Owned.congr (h : s.Owned) (hactivity : s'.activity = s.activity)
    (hrunning : s'.running = s.running) : s'.Owned := by
  refine ⟨?_, ?_⟩
  · rw [hactivity, hrunning]
    exact h.running
  · rw [hactivity]
    exact h.alone

/-- **Every step leaves the flag with at most one thread.** -/
theorem Owned.step (h : s.Owned) (hstep : Step s new s') : s'.Owned := by
  have hbeside {a a' : Activity} {t : ℕ} (ht : s.activity t = a) (ha : ¬ a.Owns)
      (ha' : ¬ a'.Owns) : (s.enter t a').Owned := h.enter (ht ▸ iff_of_false ha' ha)
  have hwithin {runner runner' : Runner} {phase phase' : Phase} {t : ℕ}
      (ht : s.activity t = .working runner phase) :
      (s.enter t (.working runner' phase')).Owned := h.enter (ht ▸ Iff.rfl)
  have howns {a : Activity} {t : ℕ} (ht : s.activity t = a) (ha : a.Owns) :
      (s.activity t).Owns := ht ▸ ha
  cases hstep with
  | maintain t compact ht => exact hbeside ht id id
  | @claim t compact ht hlock hrunning =>
    exact h.raise hrunning (a := .working .explicit (.capturing compact)) trivial rfl rfl
  | wait t ht => exact hbeside ht id id
  | waited t ht hlock hrunning => exact hbeside ht id id
  | background t compact ht => exact hbeside ht id id
  | coalesce t ht hlock hrunning => exact hbeside ht id id
  | @start t compact leader ht hlock hrunning =>
    exact h.raise hrunning (a := .spawning compact leader) trivial rfl rfl
  | @spawned t thread compact leader ht hthread =>
    have hcapturing : (Activity.working .background (.capturing compact)).Owns := trivial
    exact (h.hand (howns ht trivial) (a := .idle) id hcapturing).congr rfl rfl
  | @spawnFailed t compact leader e ht =>
    refine h.lower (howns ht trivial) (a := if leader then .recording e else .idle) ?_ rfl rfl
    split
    · exact id
    · exact id
  | record t ht => exact (hbeside ht id id).congr rfl rfl
  | commit t call ht => exact (hbeside ht id id).congr rfl rfl
  | follow t ht =>
    refine hbeside ht id ?_
    split
    · exact id
    · exact id
  | capture t sparse files ht hcapture => exact (hwithin ht).congr rfl rfl
  | captureFailed t sparse files ht hcapture => exact (hwithin ht).congr rfl rfl
  | built t failure ht hgeneration hlsn hfinish => exact hwithin ht
  | buildFailed t e ht => exact hwithin ht
  | abandon t ht => exact (hwithin ht).congr rfl rfl
  | install t failure ht hinstall => exact (hwithin ht).congr rfl rfl
  | installFailed t failure ht hinstall => exact (hwithin ht).congr rfl rfl
  | clean t r ht =>
    unfold behindCleanup
    split
    · exact hwithin ht
    · exact hwithin ht
  | checkDue t ht => exact hwithin ht
  | report t ht => exact (hwithin ht).congr rfl rfl
  | leave t ht hlock => exact h.lower (howns ht trivial) (a := .idle) id rfl rfl

/-! ### The tail -/

/-- **There is a tail as long as a captured generation is outstanding**, and unless the database is
poisoned, the thread that has captured it is still at work. -/
structure Tailed (s : SharedDatabase) (ms : List Milestone) : Prop where
  tail : s.database.checkpointTail.isSome ↔ ∃ g, Outstanding ms g
  unique : {g | Outstanding ms g}.Subsingleton
  fresh : ∀ m ∈ ms, ∀ g, m.generation = some g → g < s.nextGeneration
  job : ∀ t g, (s.activity t).job = some g → Outstanding ms g
  reason : s.database.poisoned = false → s.database.checkpointTail.isSome →
    ∃ t, (s.activity t).job.isSome

/-- The roots that are about to be installed fit a frame. -/
def Built (s : SharedDatabase) : Prop :=
  ∀ t runner job root, s.activity t = .working runner (.installing job root) →
    ∃ bytes, Frame.encode 1 root.manifest.lsn root.manifest.encode = .ok bytes

/-- Taking a thread to an activity with the same job keeps all jobs. -/
theorem job_enter {a : Activity} (h : a.job = (s.activity t).job) (t' : ℕ) :
    ((s.enter t a).activity t').job = (s.activity t').job := by
  by_cases heq : t' = t
  · rw [heq, enter_self, h]
  · rw [enter_of_ne heq]

/-- A step that begins no job keeps the tail; a job may get lost when the database is poisoned. -/
theorem Tailed.keep (h : s.Tailed ms)
    (hjob : ∀ t g, (s'.activity t).job = some g → (s.activity t).job = some g)
    (htail : s'.database.checkpointTail.isSome = s.database.checkpointTail.isSome)
    (hopen : s'.database.poisoned = false → s.database.poisoned = false ∧
      ∀ t, (s'.activity t).job = (s.activity t).job)
    (hnext : s.nextGeneration ≤ s'.nextGeneration)
    (hnew : ∀ g, Outstanding (ms ++ new) g ↔ Outstanding ms g)
    (hnone : ∀ m ∈ new, m.generation = none) : s'.Tailed (ms ++ new) where
  tail := by
    rw [htail, h.tail]
    exact exists_congr fun g => (hnew g).symm
  unique g hg g' hg' := h.unique ((hnew g).mp hg) ((hnew g').mp hg')
  fresh m hm g hg := by
    rcases List.mem_append.mp hm with hm | hm
    · exact (h.fresh m hm g hg).trans_le hnext
    · rw [hnone m hm] at hg
      cases hg
  job t g hg := (hnew g).mpr (h.job t g (hjob t g hg))
  reason hopen' hsome := by
    obtain ⟨hopen₀, hsame⟩ := hopen hopen'
    obtain ⟨t, ht⟩ := h.reason hopen₀ (htail ▸ hsome)
    exact ⟨t, hsame t ▸ ht⟩

/-- A step of a thread that keeps its job, and neither the log nor the flag matters. -/
theorem Tailed.move (h : s.Tailed ms) (hjob : ∀ t, (s'.activity t).job = (s.activity t).job)
    (hdatabase : s'.database = s.database) (hnext : s'.nextGeneration = s.nextGeneration) :
    s'.Tailed (ms ++ []) :=
  h.keep (fun t g hg => hjob t ▸ hg) (congrArg _ (congrArg _ hdatabase))
    (fun hopen => ⟨hdatabase ▸ hopen, hjob⟩) hnext.ge (fun g => by rw [List.append_nil])
    fun m hm => absurd hm List.not_mem_nil

/-- A capture begins a job, when there is none. -/
theorem Tailed.begin (h : s.Tailed ms) (hfree : s.database.checkpointTail = none) {a : Activity}
    (hjob : a.job = some s.nextGeneration) (hactivity : s'.activity = (s.enter t a).activity)
    (htail : s'.database.checkpointTail.isSome)
    (hnext : s'.nextGeneration = s.nextGeneration + 1) :
    s'.Tailed (ms ++ [.captured s.nextGeneration]) := by
  have hnone (g : ℕ) : ¬ Outstanding ms g := fun hg => by
    have hsome := h.tail.mpr ⟨g, hg⟩
    rw [hfree] at hsome
    exact absurd hsome Bool.false_ne_true
  have hnew (g : ℕ) : Outstanding (ms ++ [.captured s.nextGeneration]) g ↔
      g = s.nextGeneration := by
    constructor
    · rintro ⟨hcaptured, hinstalled, habandoned⟩
      rcases List.mem_append.mp hcaptured with hcaptured | hcaptured
      · exact absurd ⟨hcaptured, fun hmem => hinstalled (List.mem_append_left _ hmem),
          fun hmem => habandoned (List.mem_append_left _ hmem)⟩ (hnone g)
      · exact Milestone.captured.inj (List.mem_singleton.mp hcaptured)
    · rintro rfl
      refine ⟨List.mem_append_right _ (List.mem_singleton_self _), ?_, ?_⟩
      · intro hmem
        rcases List.mem_append.mp hmem with hmem | hmem
        · exact (h.fresh _ hmem _ rfl).false
        · exact absurd (List.mem_singleton.mp hmem) Milestone.noConfusion
      · intro hmem
        rcases List.mem_append.mp hmem with hmem | hmem
        · exact (h.fresh _ hmem _ rfl).false
        · exact absurd (List.mem_singleton.mp hmem) Milestone.noConfusion
  refine ⟨iff_of_true htail ⟨_, (hnew _).mpr rfl⟩, ?_, ?_, ?_, fun _ _ => ⟨t, ?_⟩⟩
  · intro g hg g' hg'
    exact ((hnew g).mp hg).trans ((hnew g').mp hg').symm
  · intro m hm g hg
    rw [hnext]
    rcases List.mem_append.mp hm with hm | hm
    · exact (h.fresh m hm g hg).trans (Nat.lt_succ_self _)
    · obtain rfl := List.mem_singleton.mp hm
      cases hg
      exact Nat.lt_succ_self _
  · intro t' g hg
    by_cases ht : t' = t
    · rw [ht, hactivity, enter_self, hjob] at hg
      exact (hnew g).mpr (Option.some.inj hg).symm
    · rw [hactivity, enter_of_ne ht] at hg
      exact absurd (h.job t' g hg) (hnone g)
  · rw [hactivity, enter_self, hjob]
    rfl

/-- An installation or an abandonment ends it. -/
theorem Tailed.finish (h : s.Tailed ms) (howned : s.Owned) {g : ℕ}
    (hg : (s.activity t).job = some g) {m : Milestone}
    (hm : m = .installed g ∨ m = .abandoned g) {a : Activity} (hjob : a.job = none)
    (hactivity : s'.activity = (s.enter t a).activity)
    (htail : s'.database.checkpointTail = none) (hnext : s'.nextGeneration = s.nextGeneration) :
    s'.Tailed (ms ++ [m]) := by
  have hnone (g' : ℕ) : ¬ Outstanding (ms ++ [m]) g' := fun hg' => by
    obtain ⟨hout, hne⟩ := (outstanding_end hm).mp hg'
    exact hne (h.unique hout (h.job t g hg))
  refine ⟨iff_of_false ?_ fun ⟨g', hg'⟩ => hnone g' hg', fun g' hg' => absurd hg' (hnone g'),
    ?_, ?_, ?_⟩
  · rw [htail]
    exact Bool.false_ne_true
  · intro m' hm' g' hg'
    rw [hnext]
    rcases List.mem_append.mp hm' with hm' | hm'
    · exact h.fresh m' hm' g' hg'
    · obtain rfl := List.mem_singleton.mp hm'
      obtain rfl : g' = g := by
        rcases hm with rfl | rfl
        · exact (Option.some.inj hg').symm
        · exact (Option.some.inj hg').symm
      exact h.fresh _ (h.job t g' hg).1 g' rfl
  · intro t' g' hg'
    by_cases ht : t' = t
    · rw [ht, hactivity, enter_self, hjob] at hg'
      cases hg'
    · -- the thread that ends its job is the only one that has one
      rw [hactivity, enter_of_ne ht] at hg'
      exact absurd (howned.alone (Activity.owns_of_job (Option.isSome_of_mem hg'))
        (Activity.owns_of_job (Option.isSome_of_mem hg))) ht
  · intro _ hsome
    rw [htail] at hsome
    exact absurd hsome Bool.false_ne_true

/-- **Every step keeps the tail with the job.** -/
theorem Tailed.step (h : s.Tailed ms) (howned : s.Owned) (hbuilt : s.Built)
    (hstep : Step s new s') : s'.Tailed (ms ++ new) := by
  have hmove {a a' : Activity} {t : ℕ} (ht : s.activity t = a) (hjob : a'.job = a.job) :
      (s.enter t a').Tailed (ms ++ []) := h.move (job_enter (ht ▸ hjob)) rfl rfl
  cases hstep with
  | maintain t compact ht => exact hmove ht rfl
  | claim t ht hlock hrunning => exact h.move (job_enter (ht ▸ rfl)) rfl rfl
  | wait t ht => exact hmove ht rfl
  | waited t ht hlock hrunning => exact hmove ht rfl
  | background t compact ht => exact hmove ht rfl
  | coalesce t ht hlock hrunning => exact hmove ht rfl
  | start t ht hlock hrunning => exact h.move (job_enter (ht ▸ rfl)) rfl rfl
  | spawned t thread ht hthread =>
    refine h.move (fun t' => ?_) rfl rfl
    refine (job_enter (s := s.enter t .idle) ?_ t').trans (job_enter (ht ▸ rfl) t')
    rw [job_enter (ht ▸ rfl), hthread]
    rfl
  | spawnFailed t e ht =>
    refine h.move (job_enter ?_) rfl rfl
    rw [ht]
    split
    · rfl
    · rfl
  | record t ht => exact h.move (job_enter (ht ▸ rfl)) rfl rfl
  | commit t call ht =>
    have hjob := @job_enter s t (.leading (call.run s.database).2.maintenanceDue) (ht ▸ rfl)
    refine h.keep (fun t g hg => hjob t ▸ hg) (call.run_keeps s.database).2
      (fun hopen => ⟨?_, hjob⟩) le_rfl (fun g => outstanding_commit) ?_
    · refine Bool.eq_false_iff.mpr fun hpoisoned => ?_
      dsimp only at hopen
      rw [call.run_poisoned hpoisoned, hpoisoned] at hopen
      exact absurd hopen Bool.noConfusion
    · intro m hm
      rw [List.mem_singleton.mp hm]
      rfl
  | follow t ht =>
    refine hmove ht ?_
    split
    · rfl
    · rfl
  | @capture t runner compact sparse files job next db ht hcapture =>
    rcases Database.captureCheckpoint_cases hcapture with
      ⟨job', header, heq, -, hfree, -, hgeneration, hnext, hdb⟩ | ⟨e, heq, -⟩
    · cases heq
      rw [hgeneration]
      refine h.begin hfree (a := .working runner (.building job)) (congrArg some hgeneration) rfl ?_
        hnext
      rw [hdb]
      rfl
    · cases heq
  | @captureFailed t runner compact sparse files e next db ht hcapture =>
    rcases Database.captureCheckpoint_cases hcapture with
      ⟨job, header, heq, -⟩ | ⟨e', -, hle, hdb, -⟩
    · cases heq
    · have hjob := @job_enter s t (.working runner (.reporting (.error e))) (ht ▸ rfl)
      refine h.keep (fun t' g hg => hjob t' ▸ hg) ?_ (fun hopen => ⟨?_, hjob⟩) hle
        (fun g => by rw [List.append_nil]) fun m hm => absurd hm List.not_mem_nil
      · rcases hdb with rfl | rfl
        · rfl
        · rfl
      · rcases hdb with rfl | rfl
        · exact hopen
        · exact absurd hopen Bool.noConfusion
  | built t failure ht hgeneration hlsn hfinish => exact hmove ht rfl
  | buildFailed t e ht => exact hmove ht rfl
  | abandon t ht =>
    exact h.finish howned (ht ▸ rfl) (Or.inr rfl) rfl rfl rfl rfl
  | @install t runner job root failure db ht hinstall =>
    obtain ⟨bytes, hbytes⟩ := hbuilt t runner job root ht
    rcases Database.installCheckpoint_cases hbytes hinstall with
      ⟨tail, -, -, -, rfl⟩ | ⟨e, written, heq, -⟩
    · exact h.finish howned (ht ▸ rfl) (Or.inl rfl) (a := .working runner .cleaning) rfl rfl rfl rfl
    · cases heq
  | @installFailed t runner job root failure e db ht hinstall =>
    obtain ⟨bytes, hbytes⟩ := hbuilt t runner job root ht
    rcases Database.installCheckpoint_cases hbytes hinstall with
      ⟨tail, heq, -⟩ | ⟨e', written, -, rfl⟩
    · cases heq
    · refine h.keep (fun t' g hg => ?_) rfl (fun hopen => absurd hopen Bool.noConfusion) le_rfl
        (fun g => by rw [List.append_nil]) fun m hm => absurd hm List.not_mem_nil
      by_cases heq : t' = t
      · have hnone : ((s.enter t (.working runner (.reporting (.error e)))).activity t').job =
            none := by
          rw [heq, enter_self]
          rfl
        exact absurd (hg.symm.trans hnone) (Option.some_ne_none g)
      · exact enter_of_ne (s := s) heq _ ▸ hg
  | clean t r ht =>
    refine hmove ht ?_
    unfold behindCleanup
    split
    · rfl
    · rfl
  | checkDue t ht =>
    refine hmove ht ?_
    split
    · rfl
    · rfl
  | report t ht => exact h.move (job_enter (ht ▸ rfl)) rfl rfl
  | leave t ht hlock => exact h.move (job_enter (ht ▸ rfl)) rfl rfl

/-- A thread that does not install anything keeps what is about to be installed. -/
theorem Built.enter (h : s.Built) {a : Activity} (hactivity : s'.activity = (s.enter t a).activity)
    (ha : ∀ runner job root, a = .working runner (.installing job root) →
      ∃ bytes, Frame.encode 1 root.manifest.lsn root.manifest.encode = .ok bytes) : s'.Built := by
  intro t' runner job root ht'
  by_cases heq : t' = t
  · rw [hactivity, heq, enter_self] at ht'
    exact ha runner job root ht'
  · rw [hactivity, enter_of_ne heq] at ht'
    exact h t' runner job root ht'

/-- **What is about to be installed has been built.** -/
theorem Built.step (h : s.Built) (hstep : Step s new s') : s'.Built := by
  cases hstep with
  | built t failure ht hgeneration hlsn hfinish =>
    refine h.enter rfl ?_
    rintro _ _ _ ⟨⟩
    obtain ⟨rfl, hbytes⟩ := CheckpointJob.finish_ok hfinish
    exact hbytes
  | spawned t thread ht hthread =>
    have hidle : (s.enter t .idle).Built := h.enter rfl (by rintro _ _ _ ⟨⟩)
    exact hidle.enter rfl (by rintro _ _ _ ⟨⟩)
  | @spawnFailed t compact leader e ht =>
    refine h.enter rfl fun _ _ _ heq => ?_
    cases leader with
    | true => cases heq
    | false => cases heq
  | follow t ht =>
    refine h.enter rfl fun _ _ _ heq => ?_
    split at heq
    · cases heq
    · cases heq
  | clean t r ht =>
    refine h.enter rfl fun _ _ _ heq => ?_
    unfold behindCleanup at heq
    split at heq
    · cases heq
    · cases heq
  | checkDue t ht =>
    refine h.enter rfl fun _ _ _ heq => ?_
    split at heq
    · cases heq
    · cases heq
  | _ => exact h.enter rfl (by rintro _ _ _ ⟨⟩)

/-! ### Runs -/

/-- What holds of a shared database behind the milestones of a run. -/
structure Inv (s : SharedDatabase) (ms : List Milestone) : Prop where
  owned : s.Owned
  tailed : s.Tailed ms
  built : s.Built
  shared : s.database.sharedMode = true

theorem Inv.initial {db : Database} (hfree : db.checkpointTail = none) (nextGeneration : ℕ) :
    (fromDatabase db nextGeneration).Inv [] where
  owned := ⟨⟨fun h => absurd h Bool.false_ne_true, fun ⟨_, h⟩ => h.elim⟩, fun _ h => h.elim⟩
  tailed :=
    { tail := iff_of_false (by rw [fromDatabase, hfree]; exact Bool.false_ne_true)
        fun ⟨_, h, _⟩ => absurd h List.not_mem_nil
      unique := fun _ h => absurd h.1 List.not_mem_nil
      fresh := fun _ h => absurd h List.not_mem_nil
      job := fun _ _ h => absurd h.symm (Option.some_ne_none _)
      reason := fun _ h => absurd h (by rw [fromDatabase, hfree]; exact Bool.false_ne_true) }
  built := by rintro _ _ _ _ ⟨⟩
  shared := rfl

/-- **What a step does to the database**: it commits a group, installs a root, or changes no more
than the log, the tail and the flag of a failed write. -/
theorem Step.effect (hstep : Step s new s') (hbuilt : s.Built) :
    (∃ call, new = [.committed call] ∧ s'.database = (call.run s.database).2) ∨
    (∃ g root tail bytes frontier, new = [.installed g] ∧ s.database.poisoned = false ∧
      s'.database = s.database.installed root tail bytes frontier) ∨
    (∀ db, replay new db = db) ∧ ∃ wal tail poisoned,
      s'.database = { s.database with wal, checkpointTail := tail, poisoned } ∧
      (s.database.poisoned = true → poisoned = true) := by
  have hsame : (∀ db, replay [] db = db) ∧ ∃ wal tail poisoned,
      s.database = { s.database with wal, checkpointTail := tail, poisoned } ∧
      (s.database.poisoned = true → poisoned = true) := ⟨fun _ => rfl, _, _, _, rfl, id⟩
  cases hstep with
  | commit t call ht => exact Or.inl ⟨call, rfl, rfl⟩
  | @capture t runner compact sparse files job next db ht hcapture =>
    rcases Database.captureCheckpoint_cases hcapture with
      ⟨job', header, -, hopen, -, -, -, -, rfl⟩ | ⟨e, heq, -⟩
    · exact Or.inr (Or.inr ⟨fun _ => rfl, _, _, _, rfl, id⟩)
    · cases heq
  | @captureFailed t runner compact sparse files e next db ht hcapture =>
    rcases Database.captureCheckpoint_cases hcapture with
      ⟨job, header, heq, -⟩ | ⟨e', -, -, hdb, -⟩
    · cases heq
    · rcases hdb with rfl | rfl
      · exact Or.inr (Or.inr hsame)
      · exact Or.inr (Or.inr ⟨fun _ => rfl, _, _, true, rfl, fun _ => rfl⟩)
  | abandon t ht => exact Or.inr (Or.inr ⟨fun _ => rfl, _, _, _, rfl, id⟩)
  | @install t runner job root failure db ht hinstall =>
    obtain ⟨bytes, hbytes⟩ := hbuilt t runner job root ht
    rcases Database.installCheckpoint_cases hbytes hinstall with
      ⟨tail, -, hopen, -, rfl⟩ | ⟨e, written, heq, -⟩
    · exact Or.inr (Or.inl ⟨job.generation, root, tail, bytes, _, rfl, hopen, rfl⟩)
    · cases heq
  | @installFailed t runner job root failure e db ht hinstall =>
    obtain ⟨bytes, hbytes⟩ := hbuilt t runner job root ht
    rcases Database.installCheckpoint_cases hbytes hinstall with
      ⟨tail, heq, -⟩ | ⟨e', written, -, rfl⟩
    · cases heq
    · exact Or.inr (Or.inr ⟨fun _ => rfl, _, _, true, rfl, fun _ => rfl⟩)
  | _ => exact Or.inr (Or.inr hsame)

/-- **Every step keeps the invariant.** -/
theorem Inv.step (h : s.Inv ms) (hstep : Step s new s') : s'.Inv (ms ++ new) where
  owned := h.owned.step hstep
  tailed := h.tailed.step h.owned h.built hstep
  built := h.built.step hstep
  shared := by
    rcases hstep.effect h.built with ⟨call, -, hdb⟩ | ⟨g, root, tail, bytes, frontier, -, -, hdb⟩ |
      ⟨-, wal, tail, poisoned, hdb, -⟩
    · rw [hdb, (call.run_keeps s.database).1]
      exact h.shared
    · rw [hdb]
      exact h.shared
    · rw [hdb]
      exact h.shared

/-- So does every run. -/
theorem Inv.run (h : s.Inv ms) (hrun : Run s new s') : s'.Inv (ms ++ new) := by
  induction hrun with
  | refl =>
    rw [List.append_nil]
    exact h
  | step _ hstep ih =>
    rw [← List.append_assoc]
    exact ih.step hstep

/-- **An installation finds its tail**, however the write of the root ends. -/
theorem Inv.installCheckpoint_isSome (h : s.Inv ms) {runner : Runner} {job : CheckpointJob}
    {root : Checkpoint} (ht : s.activity t = .working runner (.installing job root))
    (failure : Option (ℕ × String)) :
    (s.database.installCheckpoint failure root job.walFrontierBytes).isSome := by
  have hsome := h.tailed.tail.mpr ⟨job.generation, h.tailed.job t _ (ht ▸ rfl)⟩
  unfold Database.installCheckpoint
  split
  · rfl
  split
  · rfl
  · rfl
  · rw [Option.isSome_map]
    exact hsome

/-- **Without an installation the commits alone count**, as long as the database is not
poisoned. -/
theorem Inv.agrees (h : s.Inv ms) (hrun : Run s new s')
    (hnot : ∀ g, .installed g ∉ new) (hopen : s'.database.poisoned = false) :
    (replay new s.database).Agrees s'.database := by
  induction hrun with
  | refl => exact .refl _
  | @step ms₁ new₁ s₁ s₂ hrun hstep ih =>
    have hinv := h.run hrun
    have hbefore (g : ℕ) : .installed g ∉ ms₁ := fun hmem => hnot g (List.mem_append_left _ hmem)
    rw [replay_append]
    rcases hstep.effect hinv.built with ⟨call, rfl, hdb⟩ |
      ⟨g, root, tail, bytes, frontier, rfl, -⟩ | ⟨hreplay, wal, tail, poisoned, hdb, hmono⟩
    · have hopen₁ : s₁.database.poisoned = false := by
        refine Bool.eq_false_iff.mpr fun hpoisoned => ?_
        rw [hdb, call.run_poisoned hpoisoned, hpoisoned] at hopen
        exact Bool.noConfusion hopen
      have hagrees := ih hbefore hopen₁
      rw [hdb]
      refine (hagrees.commit ?_ call).2
      obtain ⟨wal, tail, heq⟩ := hagrees
      have hshared := hinv.shared
      rwa [heq] at hshared
    · exact absurd (List.mem_append_right _ (List.mem_singleton_self _)) (hnot g)
    · rw [hdb] at hopen
      obtain rfl : poisoned = false := hopen
      have hopen₁ : s₁.database.poisoned = false :=
        Bool.eq_false_iff.mpr fun hpoisoned => Bool.noConfusion (hmono hpoisoned)
      rw [hreplay, hdb]
      refine (ih hbefore hopen₁).trans ⟨wal, tail, ?_⟩
      rw [hopen₁]

/-! ### The maintenance -/

/-- **One job at a time, and a failed one leaves nothing behind.** -/
theorem maintenance_exclusive {db : Database} (hfree : db.checkpointTail = none)
    {nextGeneration : ℕ} {ms : List Milestone} {s : SharedDatabase}
    (hs : Run (fromDatabase db nextGeneration) ms s) :
    (∀ t t', (s.activity t).InJob → (s.activity t').InJob → t = t') ∧
    (s.database.checkpointTail.isSome ↔ ∃ g, .captured g ∈ ms ∧ .installed g ∉ ms ∧
      .abandoned g ∉ ms) ∧
    ∀ t runner compact, s.activity t = .working runner (.capturing compact) →
      s.database.poisoned = false →
      (∀ sparse files,
        (s.database.captureCheckpoint sparse files compact s.nextGeneration).1 ≠
          .error (.invalid "maintenance already running")) ∧
      ∀ ms' s' e, Run s ms' s' → (∀ g, .installed g ∉ ms') →
        s'.activity t = .working runner (.reporting (.error e)) →
        s'.database.poisoned = false →
        s'.database.checkpointTail = none ∧ (replay ms' s.database).Agrees s'.database := by
  have hinv : s.Inv ([] ++ ms) := (Inv.initial hfree nextGeneration).run hs
  rw [List.nil_append] at hinv
  refine ⟨fun t t' ht ht' => hinv.owned.alone ht.owns ht'.owns, hinv.tailed.tail, ?_⟩
  -- a thread at work without a captured generation leaves no reason for a tail
  have hnone {s₁ : SharedDatabase} {ms₁ : List Milestone} (hinv₁ : s₁.Inv ms₁) {t : ℕ}
      {runner : Runner} {phase : Phase} (ht : s₁.activity t = .working runner phase)
      (hjob : (Activity.working runner phase).job = none) (hopen : s₁.database.poisoned = false) :
      s₁.database.checkpointTail = none := by
    by_contra hsome
    obtain ⟨t', ht'⟩ := hinv₁.tailed.reason hopen (Option.isSome_iff_ne_none.mpr hsome)
    have howns : (s₁.activity t).Owns := ht ▸ trivial
    obtain rfl : t' = t := hinv₁.owned.alone (Activity.owns_of_job ht') howns
    rw [ht, hjob] at ht'
    exact Bool.false_ne_true ht'
  intro t runner compact ht hopen
  refine ⟨fun sparse files hrunning => ?_, fun ms' s' e hrun hnot ht' hopen' => ?_⟩
  · rcases hcapture : s.database.captureCheckpoint sparse files compact s.nextGeneration with
      ⟨r, next, db'⟩
    rw [hcapture] at hrunning
    rcases Database.captureCheckpoint_cases hcapture with
      ⟨job, header, heq, -⟩ | ⟨e, heq, -, -, hsome⟩
    · rw [heq] at hrunning
      cases hrunning
    · rw [heq] at hrunning
      have htail := hsome (Except.error.inj hrunning)
      rw [hnone hinv ht rfl hopen] at htail
      exact Bool.false_ne_true htail
  · exact ⟨hnone (hinv.run hrun) ht' rfl hopen', hinv.agrees hrun hnot hopen'⟩

/-- A capture fails when its catalog file is there already. -/
theorem run_occupied {runner : Runner} {compact : Bool}
    (ht : s.activity t = .working runner (.capturing compact)) (hopen : s.database.poisoned = false)
    (hfree : s.database.checkpointTail = none) (hnext : s.nextGeneration + 1 ≤ maxU64)
    (message : String) :
    Run s ([] ++ []) { s.enter t (.working runner (.reporting (.error (.io message)))) with
      nextGeneration := s.nextGeneration + 1 } := by
  refine Run.refl.step (.captureFailed t (fun _ => false) ⟨some message, none, none⟩ ht ?_)
  have hchecked : checkedAdd s.nextGeneration 1 = some (s.nextGeneration + 1) := if_pos hnext
  unfold Database.captureCheckpoint Database.prepareCheckpoint
  dsimp only
  rw [hopen, hfree, hchecked]
  rfl

/-- A checkpoint fails so, while a second caller waits. -/
theorem maintenance_exclusive_occupied : ∃ s : SharedDatabase, s.activity 1 = .queued true ∧
    s.activity 0 = .working .explicit (.reporting (.error (.io "File exists (os error 17)"))) ∧
    s.database.checkpointTail = none ∧
    (fromDatabase (Database.over (emptyView Files.empty)) 2).database.Agrees s.database := by
  have h₀ : Run (fromDatabase (Database.over (emptyView Files.empty)) 2) [] _ := .refl
  have h₁ := h₀.step (.maintain 0 false rfl)
  have h₂ := h₁.step (.claim 0 rfl rfl rfl)
  have h₃ := h₂.step (.maintain 1 true rfl)
  have hfailed := (maintenance_exclusive rfl h₃).2.2 0 .explicit false rfl rfl |>.2
  obtain ⟨htail, hagrees⟩ := hfailed _ _ _
    (@run_occupied _ 0 .explicit false rfl rfl rfl (show 2 + 1 ≤ maxU64 by decide)
      "File exists (os error 17)")
    (fun g => List.not_mem_nil) rfl rfl
  exact ⟨_, rfl, rfl, htail, hagrees⟩

end SharedDatabase

end EveDB.Store
