import EveDB.Running.Bindings
import EveDB.Running.Contents
import EveDB.Recovery.Behaviour

/-!
# What is recovered

A view shows its sequence, its tables and its entities (`Store.ReadState.shown`), and what it is
made of is none of anybody's business. Whatever has happened to a directory, it is opened with a
view that shows what its transactions come to when they are replayed on a new database, all that are
acknowledged among them (`Store.recovered_contents`).

That rests on what a build returns: a manifest of the sequence that was captured, with files that
are there, which shows what was captured. A build of a running database returns such a manifest
(`Running.build_meets`).
-/

namespace EveDB

open Std Store

namespace Store

/-- **What a view shows**: its sequence, its tables, and the states of its entities. -/
def ReadState.shown (view : ReadState) :
    ℕ × Catalog × (ℕ × ℕ → Result (Option (Entity × Entity))) :=
  (view.lsn, view.catalog, view.states)

/-! ### Recovery -/

/-- The semantics of what the views of a database show, now and behind all transactions that are
still to come. -/
abbrev contents (env : Env) (files : Root → Files) (options : Options) :
    Semantics (engine (env.forRecovery options.limits) files options) :=
  Semantics.behaviours _ ReadState.shown

variable {env : Env} {files : Root → Files} {options : Options}

/-- An engine goes along with the transactions it does not refuse. -/
theorem replay_of_run {E : Engine} {ο : Type} {observe : E.View → ο} {v v' : E.View}
    {xs : List (ℕ × Bytes)} (h : (E.machine observe).run v xs = some v') :
    xs.foldlM (fun v x => E.replay v x.1 x.2) v = .ok v' := by
  induction xs generalizing v with
  | nil =>
    cases h
    rfl
  | cons x xs ih =>
    obtain ⟨v₁, hstep, hrest⟩ := Option.bind_eq_some_iff.mp h
    exact bind_eq_ok.mpr ⟨v₁, Engine.take_eq_some.mp hstep, ih hrest⟩

/-- **What is recovered is what has been committed.** In every state of every run over a directory
(group commits, failed writes, checkpoints, cleanups, crashes and reopenings in any order, where
each checkpoint shows what was captured, now and behind whatever is replayed on it) the directory is
opened, with a view that shows what a new database does on which the transactions of the log have
been replayed. These have been submitted, and all that are acknowledged are among them. -/
theorem recovered_contents {limits : WalLimits} (hoptions : options.validate (env.now 0) = .ok ())
    {s : System (contents env files options)}
    (hs : Reachable (contents env files options) limits (fun _ _ => True) s) :
    ∃ db dir' txs view, openDatabase env files options s.dir = .ok (db, dir') ∧
      (∀ x ∈ s.acked, x ∈ numbered 0 txs) ∧ (∀ x ∈ numbered 0 txs, x ∈ s.submitted) ∧
      (numbered 0 txs).foldlM (fun view x =>
        replayTransaction (env.forRecovery options.limits) options view x.1 x.2)
        (emptyView (files Root.empty)) = .ok view ∧ db.state.shown = view.shown := by
  obtain ⟨o, txs, view, hopen, -, hacked, hsubmitted, hrun, hshown⟩ := hs.recovers
  exact ⟨_, _, txs, view, bind_eq_ok.mpr ⟨(), hoptions, bind_eq_ok.mpr ⟨o, hopen, rfl⟩⟩, hacked,
    hsubmitted, replay_of_run hrun, hshown⟩

/-- There is one transaction, if all that are numbered are the same. -/
theorem eq_singleton_of_numbered {p : Bytes} {txs : List Bytes} (hmem : (1, p) ∈ numbered 0 txs)
    (hall : ∀ x ∈ numbered 0 txs, x = (1, p)) : txs = [p] := by
  cases txs with
  | nil => cases hmem
  | cons q qs =>
    cases hall (1, q) List.mem_cons_self
    cases qs with
    | nil => rfl
    | cons r rs => cases hall (2, r) (List.mem_cons_of_mem _ List.mem_cons_self)

/-- The semantics of a database without files. -/
abbrev quietContents :=
  contents (Env.quiet Limits.default false) (fun _ => Files.empty) Options.default

/-- An item is committed, and the power fails. -/
theorem recovered_contents_run : ∃ s : System quietContents,
    Reachable quietContents ⟨maxU64⟩ (fun _ _ => True) s ∧ s.handle = none ∧
      s.acked = [(1, firstPayload)] ∧
      ∃ db dir', openDatabase (Env.quiet Limits.default false) (fun _ => Files.empty)
        Options.default s.dir = .ok (db, dir') ∧
        db.state.shown = (firstView Files.empty).shown := by
  have henv := Env.recovers_forRecovery (Env.quiet Limits.default false) Options.default.limits
  have hreplay := replay_firstPayload Files.empty henv Options.default
  obtain ⟨o, hopen, -, -, -, hlsn, hview, -, -⟩ := @open_oneSegment _ quietContents [] 1
    (List.forall_mem_nil _) (Nat.zero_le _) le_rfl _ rfl
  rw [oneSegmentDirectory_nil] at hopen
  rw [List.length_nil] at hlsn
  have hnext : o.lsn + [firstPayload].length ≤ maxU64 := by
    rw [hlsn]
    decide
  have hopened : Reachable quietContents ⟨maxU64⟩ (fun _ _ => True) _ :=
    Reachable.initial.step (a := .reopen) trivial (Step.reopen _ o _ rfl hopen hview)
  obtain ⟨state, hrun⟩ : ∃ state,
      quietContents.run quietContents.initial o.lsn [firstPayload] = some state := by
    rw [hlsn]
    exact ⟨_, Semantics.behaviours_replay hreplay⟩
  have hsize : ∀ p ∈ [firstPayload], p.length ≤ maxFrame := by decide +kernel
  have hcommitted := hopened.step (a := .commit [firstPayload] .ok) trivial
    (Step.commit _ (o.handle quietContents.initial) [firstPayload] state .ok rfl rfl hrun hsize
      hnext (min_le_right _ _))
  have hdied := hcommitted.step (a := .crash _) trivial (Step.crash_syncedBytes ⟨maxU64⟩ _)
  obtain ⟨db, dir', txs, view, hdb, hacked, hsubmitted, hfold, hshown⟩ :=
    recovered_contents (by decide) hdied
  have hall : [] ++ numbered o.lsn [firstPayload] = [(1, firstPayload)] := by
    rw [hlsn]
    rfl
  obtain rfl : txs = [firstPayload] := by
    refine eq_singleton_of_numbered (hacked _ ?_) fun x hx => ?_
    · exact hall.symm ▸ List.mem_singleton_self _
    · have hmem : x ∈ [] ++ numbered o.lsn [firstPayload] := hsubmitted x hx
      rw [hall] at hmem
      exact List.mem_singleton.mp hmem
  obtain ⟨view', hview', heq⟩ := bind_eq_ok.mp hfold
  cases heq
  obtain rfl := Except.ok.inj (hreplay.symm.trans hview')
  exact ⟨_, hdied, rfl, hall, db, dir', hdb, hshown⟩

end Store

namespace Running

/-! ### Builds -/

variable {storage : Storage} {s : Running}

/-- **A build of a running database meets what recovery asks of it.** The manifest has the
generation of the job and the sequence that was captured. Its files are those of the current
manifest, those of the manifest whose place this one has taken, and files of its own generation that
have been written. And when it is opened it shows what the view shows that was captured. -/
theorem build_meets (h : Reachable storage s) {job : Store.CheckpointJob} {failure : Option String}
    {root : Checkpoint} {disk : Disk} (hbuilding : s.work = .building job)
    (hbuild : (job.build storage s.disk failure).result = .ok (root, disk)) :
    root.manifest.generation = job.generation ∧ root.manifest.lsn = job.state.lsn ∧
    root.manifest.encode.length ≤ maxFrame ∧
    (∀ info ∈ root.manifest.files, info ∈ s.database.state.root.manifest.files ∨
      (∃ previous, s.replaced = some previous ∧ info ∈ previous.files) ∨
      (disk info.id).isSome ∧ info.generation = job.generation) ∧
    ∀ env options, ReadState.shown ((engine env (fun root => (Checkpoint.ofDisk disk root).files)
      options).load root.manifest) = job.state.shown := by
  obtain ⟨_, held, _, _, hbuilt⟩ := h.sound.built hbuilding hbuild
  obtain ⟨built, _, _, _, hsize⟩ := job.build_eq_ok hbuild
  refine ⟨hbuilt.generation_eq, hbuilt.lsn_eq, hsize, build_files h hbuilding hbuild,
    fun env options => ?_⟩
  have hstates : ReadState.states ⟨⟨root.manifest, (Checkpoint.ofDisk disk root.manifest).files⟩,
      root.manifest.catalog, ∅, root.manifest.lsn⟩ = job.state.states := by
    funext key
    rw [ReadState.states, ExtTreeMap.getElem?_empty]
    dsimp only
    rw [← h.sound.built_states h.formed hbuilding hbuild key, hbuilt.eq_ofDisk]
    rfl
  exact Prod.ext hbuilt.lsn_eq (Prod.ext hbuilt.catalog_eq hstates)

/-- The first checkpoint of a database with an item has six files, all of them its own. -/
theorem build_meets_first : ∃ (s : Running) (job : Store.CheckpointJob) (root : Checkpoint)
    (disk : Disk), Reachable Storage.vast s ∧ s.work = .building job ∧
      (job.build Storage.vast s.disk none).result = .ok (root, disk) ∧
      root.manifest.files.length = 6 ∧
      (∀ info ∈ root.manifest.files, (disk info.id).isSome ∧ info.generation = job.generation) ∧
      root.manifest.lsn = 1 ∧ ReadState.shown ((engine (Env.quiet Limits.default false)
        (fun root => (Checkpoint.ofDisk disk root).files) Options.default).load root.manifest) =
          job.state.shown := by
  obtain ⟨s, job, root, disk, hreachable, hbuilding, hbuild, hfiles, hlsn, hnone, hreplaced⟩ :=
    exists_captured
  obtain ⟨-, hlsn', -, hlisted, hshown⟩ := build_meets hreachable hbuilding hbuild
  refine ⟨s, job, root, disk, hreachable, hbuilding, hbuild, hfiles, fun info hinfo => ?_,
    hlsn'.trans hlsn, hshown _ _⟩
  -- there are no other manifests with files
  rcases hlisted info hinfo with hcurrent | ⟨previous, hprevious, -⟩ | hown
  · rw [hnone] at hcurrent
    cases hcurrent
  · rw [hreplaced] at hprevious
    cases hprevious
  · exact hown

end Running

end EveDB
