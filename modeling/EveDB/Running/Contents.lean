import EveDB.Library.Overwrite
import EveDB.Running.Files
import EveDB.Running.Formed

/-!
# What a shared database has

Every view in use has what the directory had when it was opened, with the batches written over it
that have been committed up to the sequence of the view (`Running.contentsAt`). That is all that can
be told from reading it (`Running.snapshot_reads`): whether an entity is in memory or in the files
of a checkpoint, which one, and what the maintenance is doing makes no difference.
-/

namespace EveDB

open Std Store

/-! ### Views and batches -/

namespace Store

/-- What a batch writes: the current state and the base of each entity it has staged. -/
def Prepared.writes (b : Prepared) : Contents (ℕ × ℕ) (Entity × Entity) := fun key =>
  b.staged[key]?.map EntityData.states

/-- **A view has these contents.** -/
def ReadState.Holds (view : ReadState) (c : Contents (ℕ × ℕ) (Entity × Entity)) : Prop :=
  ∀ key, view.states key = .ok (c key)

section Holds

variable {view view' : ReadState} {c : Contents (ℕ × ℕ) (Entity × Entity)}

theorem ReadState.states_eq (view : ReadState) (key : ℕ × ℕ) : view.states key =
    match view.overlay[key]?.map EntityData.states with
    | some states => .ok (some states)
    | none => view.root.states key := by
  rw [states]
  cases view.overlay[key]? with
  | none => rfl
  | some data => rfl

/-- **What is laid over a view** is written over its contents. -/
theorem ReadState.Holds.over (h : view.Holds c) {w : Contents (ℕ × ℕ) (Entity × Entity)}
    (hroot : view'.root = view.root) (hoverlay : ∀ key : ℕ × ℕ,
      view'.overlay[key]?.map EntityData.states =
        (w key).or (view.overlay[key]?.map EntityData.states)) : view'.Holds (c.write w) := by
  intro key
  rw [ReadState.states_eq, hoverlay, hroot, Contents.write]
  cases w key with
  | some states => rfl
  | none =>
    rw [Option.none_or, Option.none_or, ← h key, ReadState.states_eq]

/-- **Reading an entity** returns its current state, unless it has been deleted. -/
theorem ReadState.Holds.get (h : view.Holds c) {table id : ℕ} (htable : table ∈ view.catalog) :
    (view.get table id).result =
      .ok (((c (table, id)).map Prod.fst).filter fun entity => ¬entity.deleted) := by
  obtain ⟨t, ht⟩ := Option.isSome_iff_exists.mp (ExtTreeMap.mem_iff_isSome_getElem?.mp htable)
  have hdefinition : view.catalog.table table = .ok t := by
    rw [Catalog.table, ht]
  have hkey := h (table, id)
  rw [ReadState.get, hdefinition, Guarded.lift_ok_bind]
  rw [ReadState.states] at hkey
  cases hdata : view.overlay[(table, id)]? with
  | some data =>
    rw [hdata] at hkey
    rw [← Except.ok.inj hkey]
    rfl
  | none =>
    rw [hdata] at hkey
    dsimp only at hkey ⊢
    rw [Guarded.result_bind, Checkpoint.current, Guarded.result_bind]
    obtain ⟨found, hfound, heq⟩ := map_eq_ok.mp hkey
    rw [Checkpoint.entity, Guarded.result_bind] at hfound
    obtain ⟨value, hvalue, hfound⟩ := bind_eq_ok.mp hfound
    rw [hvalue, ok_bind]
    cases value with
    | none =>
      cases hfound
      rw [← heq]
      rfl
    | some value =>
      rw [Guarded.result_bind] at hfound
      obtain ⟨current, hcurrent, hfound⟩ := bind_eq_ok.mp hfound
      rw [Guarded.result_bind] at hfound
      obtain ⟨base, hbase, hfound⟩ := bind_eq_ok.mp hfound
      dsimp only
      rw [Guarded.result_bind, hcurrent]
      split at hfound
      · cases hfound
      · cases hfound
        rw [← heq]
        rfl

/-- **What a group has committed** is written over the contents of the view. -/
theorem Ready.holds {env : Env} {root : Checkpoint} {tick lsn : ℕ} {ps : List (Prepared × ℕ)}
    {qs : List (Prepared × Bytes)} (h : Ready env root tick lsn ps qs) {db : Database}
    (hdb : db.state.Holds c) : (publishEach (qs.map Prod.fst) db).state.Holds
      (c.writeAll (ps.map fun p => p.1.writes)) := by
  induction h generalizing db c with
  | nil => exact hdb
  | @cons lsn b b' frame ps qs hne hbase hawake hmax hframe hrebound rest ih =>
    refine ih (hdb.over rfl fun key => ?_)
    rw [getElem?_publishState, Option.map_or, Option.map_map]
    refine congrArg (Option.or · _) ?_
    -- binding a batch to a manifest leaves the states alone
    have hsame := hrebound.sameEntities key
    change b'.staged[key]?.map _ = b.staged[key]?.map EntityData.states
    generalize b.staged[key]? = found, b'.staged[key]? = found' at hsame
    cases hsame with
    | none => rfl
    | some hkept => exact congrArg some (Prod.ext hkept.current hkept.base)

end Holds

end Store

namespace Running

/-! ### Histories -/

/-- **A history**: what there was behind a sequence, and the batches committed since. -/
structure History where
  first : ℕ
  before : Contents (ℕ × ℕ) (Entity × Entity)
  batches : List Store.Prepared

/-- **The contents behind a sequence**: all batches up to there are written over what there was. -/
def History.contentsAt (history : History) (sequence : ℕ) : Contents (ℕ × ℕ) (Entity × Entity) :=
  history.before.writeAll
    ((history.batches.map Store.Prepared.writes).take (sequence - history.first))

/-- **A view that shows what there was behind its sequence.** -/
structure History.Shown (history : History) (view : ReadState) : Prop where
  first : history.first ≤ view.lsn
  behind : view.lsn ≤ history.first + history.batches.length
  holds : view.Holds (history.contentsAt view.lsn)

section History

variable {history : History} {more : List Store.Prepared} {sequence : ℕ} {view : ReadState}

/-- At the end there is all that has been written. -/
theorem History.contentsAt_last (h : sequence = history.first + history.batches.length) :
    history.contentsAt sequence =
      history.before.writeAll (history.batches.map Store.Prepared.writes) := by
  rw [contentsAt, h, Nat.add_sub_cancel_left, List.take_of_length_le]
  rw [List.length_map]

/-- **What there was behind a sequence** does not change. -/
theorem History.contentsAt_append (hle : sequence ≤ history.first + history.batches.length) :
    History.contentsAt { history with batches := history.batches ++ more } sequence =
      history.contentsAt sequence := by
  rw [contentsAt, contentsAt, List.map_append, List.take_append_of_le_length]
  rw [List.length_map]
  exact Nat.sub_le_of_le_add (Nat.add_comm _ _ ▸ hle)

/-- So a view goes on showing it. -/
theorem History.Shown.append (h : history.Shown view) :
    History.Shown { history with batches := history.batches ++ more } view := by
  refine ⟨h.first, h.behind.trans ?_, ?_⟩
  · rw [List.length_append]
    exact Nat.add_le_add_left (Nat.le_add_right _ _) _
  · rw [contentsAt_append h.behind]
    exact h.holds

end History

section Told

variable (s : Running) (before : Contents (ℕ × ℕ) (Entity × Entity))

/-- The history since the directory was opened. -/
def history : History := ⟨s.opened.lsn, before, s.written⟩

/-- What is told of a job. -/
def Telling (history : History) (work : Work) : Prop :=
  match work with
  | .building job => history.Shown job.state
  | .installing job root =>
    history.Shown job.state ∧ ∀ key, root.states key = job.state.states key
  | _ => True

/-- **A database that tells its history**, with manifests that can be opened again. -/
structure Told : Prop where
  opened : s.opened.Holds before
  sequence : s.database.state.lsn = s.opened.lsn + s.written.length
  state : (s.history before).Shown s.database.state
  views : ∀ view ∈ s.views, (s.history before).Shown view
  telling : Telling (s.history before) s.work
  roots : ∀ entry ∈ s.roots, ∃ c : Contents (ℕ × ℕ) (Entity × Entity), ∀ key,
    (Checkpoint.ofDisk entry.2 entry.1).states key = .ok (c key)

end Told

variable {storage : Storage} {s s' : Running} {before : Contents (ℕ × ℕ) (Entity × Entity)}

/-! ### Steps -/

/-- **A group** is written over the contents there are. -/
theorem Told.commit (h : s.Told before) (hsound : s.Sound) {call : CommitCall}
    {answers : List (Option (Result ℕ))} {db : Database}
    (hbatches : ∀ batch ∈ call.batches, ∃ view ∈ s.views, batch.HandedOver view)
    (hcommit : call.run s.database = (answers, db)) (c : Coordinator) :
    Told { s with
      database := db
      coordinator := c
      written := s.written ++ (committed call.batches answers).map Prod.fst } before := by
  set more := (committed call.batches answers).map Prod.fst with hmore
  have happend {view : ReadState} (hview : (s.history before).Shown view) :
      History.Shown ⟨s.opened.lsn, before, s.written ++ more⟩ view := hview.append
  have hwhole : s.database.state.Holds (before.writeAll (s.written.map Store.Prepared.writes)) := by
    have hlast := @History.contentsAt_last (s.history before) _ h.sequence
    exact hlast ▸ h.state.holds
  obtain ⟨hlsn, hstate⟩ : db.state.lsn = s.database.state.lsn + more.length ∧ db.state.Holds
      (before.writeAll ((s.written ++ more).map Store.Prepared.writes)) := by
    rcases Database.commit_cases hsound.sharedMode (hsound.base_le hbatches) hcommit with
      ⟨wal, poisoned, rfl, hnone⟩ | ⟨tick, qs, hready, hstate, -⟩
    · rw [hmore, hnone, List.map_nil, List.append_nil]
      exact ⟨rfl, hwhole⟩
    · rw [hstate, hmore, List.map_append, Contents.writeAll_append, List.length_map, List.map_map]
      exact ⟨(hready.publishEach_spec rfl).2.1, hready.holds hwhole⟩
  have hsequence : db.state.lsn = s.opened.lsn + (s.written ++ more).length := by
    rw [hlsn, h.sequence, List.length_append, Nat.add_assoc]
  refine ⟨h.opened, hsequence, ⟨?_, hsequence.le, ?_⟩,
    fun view hview => happend (h.views view hview),
    ?_, h.roots⟩
  · exact (Nat.le_add_right _ _).trans hsequence.ge
  · rw [History.contentsAt_last hsequence]
    exact hstate
  · have hworks (work : Work) (htelling : Telling (s.history before) work) :
        Telling ⟨s.opened.lsn, before, s.written ++ more⟩ work := by
      cases work with
      | building job => exact happend htelling
      | installing job root => exact ⟨happend htelling.1, htelling.2⟩
      | idle | installed | sweeping => trivial
    exact hworks s.work h.telling

/-- **A checkpoint that is built** has what the view has that it was captured from. -/
theorem Sound.built_states (h : s.Sound) (hformed : s.Formed) {job : Store.CheckpointJob}
    {failure : Option String} {root : Checkpoint} {disk : Disk} (hbuilding : s.work = .building job)
    (hbuild : (job.build storage s.disk failure).result = .ok (root, disk)) (key : ℕ × ℕ) :
    root.states key = job.state.states key := by
  obtain ⟨hjob, held, hheld, hstocked, hbuilt⟩ := h.built hbuilding hbuild
  have hmaking := hformed.making
  rw [hbuilding] at hmaking
  refine hbuilt.states hheld (fun file hfile => ?_) hjob.older hjob.tables hmaking
    (Nat.lt_succ_of_le hjob.bounded) key
  obtain ⟨bytes, hbytes, hdisk⟩ := hstocked file hfile
  rcases hbuilt.added file with hsame | ⟨hnone, -⟩
  · rw [hsame, hdisk, hbytes]
  · rw [hnone] at hdisk
    cases hdisk

/-- **An installation** changes nothing in what there is. -/
theorem Captured.installed_states {job : Store.CheckpointJob} (h : s.Captured job)
    {root : Checkpoint}
    (hroot : ∀ key, root.states key = job.state.states key) {tail : SortedMap (ℕ × ℕ) EntityData}
    (htail : s.database.checkpointTail = some tail) (record : Bytes) (frontier : ℕ) (key : ℕ × ℕ) :
    (s.database.installed root tail record frontier).state.states key =
      s.database.state.states key := by
  obtain ⟨tail', htail', htailed⟩ := h.tailed
  rw [htail] at htail'
  cases htail'
  have hover : (s.database.installed root tail record frontier).state.overlay[key]? = tail[key]? :=
    rfl
  have hbase : (s.database.installed root tail record frontier).state.root = root := rfl
  rw [ReadState.states, ReadState.states, hover, hbase, htailed key]
  cases tail[key]? with
  | some data => rfl
  | none =>
    -- it has not been written behind the capture
    rw [Option.none_or, hroot key, ReadState.states, h.root]

/-- **Every step** goes on with the history. -/
theorem Told.step (h : s.Told before) (hsound : s.Sound) (hformed : s.Formed)
    (hstep : Step storage s s') : s'.Told before := by
  cases hstep with
  | pin hopen =>
    refine { h with views := List.forall_mem_cons.mpr ⟨?_, h.views⟩ }
    exact hsound.published.symm ▸ h.state
  | release hviews =>
    refine { h with views := fun view hview => h.views view ?_ }
    rw [hviews]
    rcases List.mem_append.mp hview with hmem | hmem
    · exact List.mem_append_left _ hmem
    · exact List.mem_append_right _ (List.mem_cons_of_mem _ hmem)
  | commit hvalid haccepted hbatches htyped hcommit => exact h.commit hsound hbatches hcommit _
  | @capture sparse files compact job next db hidle hcapture =>
    obtain ⟨hstate, -, -, header, rfl⟩ := Database.captureCheckpoint_ok hcapture
    refine { h with telling := ?_ }
    change (s.history before).Shown job.state
    exact hstate ▸ h.state
  | captureFailed hidle hcapture =>
    rcases Database.captureCheckpoint_cases hcapture with ⟨_, _, hok, -⟩ | ⟨e, -, -, rfl | rfl, -⟩
    · cases hok
    · exact { h with }
    · exact { h with }
  | build hbuilding hbuild =>
    have htelling := h.telling
    rw [hbuilding] at htelling
    exact { h with telling := ⟨htelling, hsound.built_states hformed hbuilding hbuild⟩ }
  | abandon hbuilding hleft => exact { h with telling := trivial }
  | @install job root failure db hinstalling hinstall =>
    obtain ⟨tail, record, htail, rfl⟩ := Database.installCheckpoint_ok hinstall
    have htelling := h.telling
    have hworking := hsound.working
    rw [hinstalling] at htelling hworking
    obtain ⟨hjob, hcame⟩ := hworking
    obtain ⟨hshown, hstates⟩ := htelling
    have hinstalled := hjob.installed_states hstates htail record job.walFrontierBytes
    refine { h with
      state :=
        ⟨h.state.first, h.state.behind, fun key => (hinstalled key).trans (h.state.holds key)⟩
      telling := trivial
      roots := List.forall_mem_cons.mpr ⟨⟨(s.history before).contentsAt job.state.lsn,
        fun key => ?_⟩, h.roots⟩ }
    -- it is read from the directory as from where it has been built
    obtain ⟨held, hheld, hstocked⟩ := hcame.grounded.held
    refine Eq.trans ?_ ((hstates key).trans (hshown.holds key))
    rw [hheld]
    refine (hcame.grounded.counted.states_eq (fun file hfile => ?_) key).symm
    obtain ⟨bytes, hbytes, hdisk⟩ := hstocked file hfile
    rw [hbytes, hdisk]
  | installFailed hinstalling hinstall =>
    obtain ⟨wal, poisoned, rfl⟩ := Database.installCheckpoint_error hinstall
    exact { h with telling := trivial }
  | sweep hinstalled => exact { h with telling := trivial }
  | remove file hsweeping hfile => exact { h with }
  | swept hsweeping => exact { h with telling := trivial }

/-- A database that has been opened begins a history. -/
theorem told_opened {disk : Disk} {db : Database} {next : ℕ} {roots : List (Root × Disk)}
    {replaced : Option Root} {c : Contents (ℕ × ℕ) (Entity × Entity)}
    (hroot : ∀ key, db.state.root.states key = .ok (c key))
    (hroots : ∀ entry ∈ roots, ∃ c : Contents (ℕ × ℕ) (Entity × Entity), ∀ key,
      (Checkpoint.ofDisk entry.2 entry.1).states key = .ok (c key)) :
    ∃ before, Told
      { disk, database := { db with sharedMode := true }, nextGeneration := next
        coordinator := .new, work := .idle, views := [], roots, replaced, opened := db.state
        written := [] }
      before := by
  -- what has been replayed is laid over the manifest
  set w : Contents (ℕ × ℕ) (Entity × Entity) := fun key =>
    db.state.overlay[key]?.map EntityData.states with hw
  have hempty : ReadState.Holds { db.state with overlay := ∅ } c := by
    intro key
    rw [ReadState.states, ExtTreeMap.getElem?_empty]
    exact hroot key
  have hholds : db.state.Holds (c.write w) := by
    refine hempty.over rfl fun key => ?_
    rw [ExtTreeMap.getElem?_empty, Option.map_none, Option.or_none]
  refine ⟨c.write w, hholds, rfl, ⟨le_rfl, le_rfl, ?_⟩, List.forall_mem_nil _, trivial, hroots⟩
  have hlast := @History.contentsAt_last ⟨db.state.lsn, c.write w, []⟩ db.state.lsn rfl
  exact hlast ▸ hholds

/-- **The end of the process** begins a history anew. -/
theorem Told.reopens (h : s.Told before) (hsound : s.Sound) (hreopens : Reopens s s') :
    ∃ before, s'.Told before := by
  obtain ⟨hleft, hopen, hroot, hverified, hnext⟩ := hreopens
  rename_i disk env options dir dir' db next held
  obtain ⟨-, hrecovered⟩ := openDatabase_recovered hopen
  obtain ⟨c, hc⟩ := h.roots _ hroot
  refine told_opened (c := c) (fun key => ?_) h.roots
  rw [hrecovered.root_eq]
  refine ((hsound.roots _ hroot).1.states_eq (fun file hfile => ?_) key).trans (hc key)
  obtain ⟨info, hinfo, rfl⟩ := List.mem_map.mp hfile
  exact hverified info hinfo

/-- **A shared database tells its history** at all times. -/
theorem Reachable.told (h : Reachable storage s) : ∃ before, s.Told before := by
  induction h with
  | @opened env options dir' db hopen =>
    have hnone (key : ℕ × ℕ) :
      (Checkpoint.ofDisk (fun _ => none) Root.empty).states key = .ok none :=
      Checkpoint.states_none (if_pos (mt ExtTreeMap.contains_iff_mem.mp ExtTreeMap.not_mem_empty))
    refine told_opened (c := fun _ => none) (fun key => ?_)
      (List.forall_mem_singleton.mpr ⟨fun _ => none, hnone⟩)
    rw [openDatabase_initial hopen]
    exact hnone key
  | step h hstep ih =>
    obtain ⟨before, htold⟩ := ih
    exact ⟨before, htold.step h.sound h.formed hstep⟩
  | reopened h hreopens ih =>
    obtain ⟨before, htold⟩ := ih
    exact htold.reopens h.sound hreopens

/-- **Whatever is in use** shows what there was behind its sequence. -/
theorem Told.shows (h : s.Told before) (hsound : s.Sound) {view : ReadState}
    (hshows : s.Shows view) : (s.history before).Shown view := by
  cases hshows with
  | current => exact h.state
  | published => exact hsound.published.symm ▸ h.state
  | pinned hview => exact h.views view hview
  | captured hwork =>
    have htelling := h.telling
    rwa [hwork] at htelling

/-! ### Reading -/

/-- **What no batch has touched** between two views is read alike in both of them. -/
theorem Told.get_eq (h : s.Told before) (hsound : s.Sound) {view view' : ReadState}
    (hshows : s.Shows view) (hshows' : s.Shows view') (hle : view.lsn ≤ view'.lsn) {table id : ℕ}
    (htable : table ∈ view.catalog) (htable' : table ∈ view'.catalog)
    (hnone : ∀ i batch, view.lsn ≤ s.opened.lsn + i → s.opened.lsn + i < view'.lsn →
      s.written[i]? = some batch → (table, id) ∉ batch.staged) :
    (view.get table id).result = (view'.get table id).result := by
  have hshown := h.shows hsound hshows
  have hshown' := h.shows hsound hshows'
  rw [hshown.holds.get htable, hshown'.holds.get htable']
  have hsame : (s.history before).contentsAt view'.lsn (table, id) =
      (s.history before).contentsAt view.lsn (table, id) := by
    refine Contents.writeAll_take (Nat.sub_le_sub_right hle _) fun i w hfrom hto hw => ?_
    obtain ⟨batch, hbatch, rfl⟩ := List.getElem?_map ▸ hw |> Option.map_eq_some_iff.mp
    have hfirst : s.opened.lsn ≤ view.lsn := hshown.first
    change view.lsn - s.opened.lsn ≤ i at hfrom
    change i < view'.lsn - s.opened.lsn at hto
    have hkey := hnone i batch (by omega) (by omega) hbatch
    rw [Store.Prepared.writes, ExtTreeMap.getElem?_eq_none hkey]
    rfl
  rw [hsame]


end Running

end EveDB
