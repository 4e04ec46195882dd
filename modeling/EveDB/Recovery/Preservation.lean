import EveDB.Recovery.Writes

/-!
# The steps keep the invariant

The steps that write nothing to the log change the files or the handle only; a crash
cuts the log; reopening drops what is torn. Together with the writes of
`EveDB.Recovery.Writes` this is every step of a run (`Inv.step`).

The hypotheses under `strict` are what a step must meet for the durability clauses
of the invariant to survive it: the condition `SyncedStep`, stated on the bytes of the
directory.
-/

namespace EveDB

variable {E : Engine} {S : Semantics E}

namespace Inv

variable {strict : Prop} {s : System S} {L P : Log} {timeline : List Bytes} {floor : ℕ}
  {h : Handle S}

/-! ### Steps that write nothing to the log -/

/-- **A step that leaves the log alone**: what is stored, the handle and its root are all
that has to be looked at. -/
theorem keep (hinv : Inv strict s L P timeline floor) {s' : System S} {P' : Log} {h' : Handle S}
    (hh' : s'.handle = some h') (hstored : Stored S s'.dir s'.writing L P' timeline floor)
    (hhandle : HandleInv s' h' L timeline floor) (hroot : strict → P'.Published h'.root)
    (hwriting : s'.writing = s.writing := by rfl) (hacked : s'.acked = s.acked := by rfl)
    (hsubmitted : s'.submitted = s.submitted := by rfl) : Inv strict s' L P' timeline floor where
  stored := hstored
  acked := hacked ▸ hinv.acked
  acked_synced := by rw [hwriting, hacked]; exact hinv.acked_synced
  submitted := hsubmitted ▸ hinv.submitted
  handle := fun h'' heq => by
    rw [hh'] at heq
    cases heq
    exact hhandle
  sealed_synced := hinv.sealed_synced
  root_synced := fun hs h'' heq => by
    rw [hh'] at heq
    cases heq
    exact hroot hs

/-- Removing files of the catalog, or adding some, is not seen by recovery. -/
theorem catalogs (hinv : Inv strict s L P timeline floor) (hh : s.handle = some h)
    (catalogs : List ℕ) {nextGeneration : ℕ} (hle : h.nextGeneration ≤ nextGeneration) :
    Inv strict { s with
        dir := { s.dir with catalogs }
        handle := some { h with nextGeneration } } L P timeline floor := by
  have hh' := hinv.handle h hh
  refine hinv.keep rfl
    (hinv.stored.of_segments rfl rfl hinv.stored.tables hinv.stored.files)
    { root_mem := hh'.root_mem
      floor_le := hh'.floor_le
      next := fun hmax t ht => (hh'.next (by simp only at hmax; omega) t ht).trans_le hle
      newest := hh'.newest
      lsn := hh'.lsn
      state := hh'.state
      active := hh'.active
      whole := hh'.whole
      job := fun ready job hjob => ?_
      job_none := hh'.job_none
      cleanup_le := hh'.cleanup_le
      cleanup_roots := hh'.cleanup_roots
      replaced := hh'.replaced } fun hs => hinv.root_synced hs h hh
  have hj := hh'.job ready job hjob
  exact ⟨hj.generation, hj.fresh, hj.lsn, hj.lsn_le, hj.state, hj.built⟩

/-- **A new table file.** -/
theorem writeTable (hinv : Inv strict s L P timeline floor) (hh : s.handle = some h)
    {job : CheckpointJob S} {file : FileInfo} (hjob : h.job = some job) (hbuilt : job.built = none)
    (hfresh : ∀ f ∈ s.dir.tables, f.id ≠ file.id) :
    Inv strict { s with dir := { s.dir with tables := s.dir.tables ++ [file] } }
      L P timeline floor := by
  have hh' := hinv.handle h hh
  refine hinv.keep hh (hinv.stored.of_segments rfl rfl ?_ fun r hr hle f hf =>
      List.mem_append_left _ (hinv.stored.files r hr hle f hf))
    { hh' with job := fun ready job' hjob' => ?_ } fun hs => hinv.root_synced hs h hh
  · rw [List.map_append, List.nodup_append]
    refine ⟨hinv.stored.tables, by simp, fun x hx y hy heq => ?_⟩
    obtain ⟨f, hf, rfl⟩ := List.mem_map.mp hx
    exact hfresh f hf (heq.trans (List.mem_singleton.mp hy))
  · rw [hjob] at hjob'
    cases hjob'
    have hj := hh'.job ready job hjob
    refine ⟨hj.generation, hj.fresh, hj.lsn, hj.lsn_le, hj.state, fun root hroot => ?_⟩
    rw [hbuilt] at hroot
    cases hroot

/-- **The end of a build.** -/
theorem build (hinv : Inv strict s L P timeline floor) (hh : s.handle = some h)
    {job : CheckpointJob S} {root : Root} (hjob : h.job = some job)
    (hgeneration : root.generation = job.generation) (hlsn : root.lsn = job.lsn)
    (hdecode : Root.decode root.encode = .ok root) (hsize : root.encode.length ≤ maxFrame)
    (hfiles : ∀ f ∈ root.files, f ∈ h.root.files ∨
      (∃ previous, h.replaced = some previous ∧ f ∈ previous.files) ∨
      f ∈ s.dir.tables ∧ f.generation = job.generation)
    (hdenotes : S.Denotes (E.load root) job.state) :
    Inv strict { s with handle := some { h with job := some { job with built := some root } } }
      L P timeline floor := by
  have hh' := hinv.handle h hh
  refine hinv.keep rfl hinv.stored
    { hh' with
      job := fun ready job' hjob' => ?_
      job_none := fun hne => ?_ } fun hs => hinv.root_synced hs h hh
  · cases hjob'
    have hj := hh'.job ready job hjob
    refine ⟨hj.generation, hj.fresh, hj.lsn, hj.lsn_le, hj.state, fun root' hroot => ?_⟩
    cases hroot
    refine ⟨hgeneration, hlsn, hdecode, hsize, fun f hf => ?_, hdenotes⟩
    -- the files of the replaced root are there until the next installation
    rcases hfiles f hf with hroot | ⟨previous, hprevious, hfile⟩ | ⟨hnew, -⟩
    · exact hinv.stored.files _ hh'.root_mem hh'.floor_le f hroot
    · obtain ⟨hmem, hle⟩ := hh'.replaced previous hprevious
      exact hinv.stored.files _ hmem hle f hfile
    · exact hnew
  · have := hh'.job_none hne
    rw [hjob] at this
    cases this

/-- **A checkpoint is given up.** -/
theorem abandon (hinv : Inv strict s L P timeline floor) (hh : s.handle = some h) :
    Inv strict { s with handle := some { h with tail := false, job := none } }
      L P timeline floor := by
  have hh' := hinv.handle h hh
  exact hinv.keep rfl hinv.stored
    { hh' with
      job := fun _ job hjob => by cases hjob
      job_none := fun _ => rfl } fun hs => hinv.root_synced hs h hh

/-- **The cleanup removes a segment.** -/
theorem removeSegment (hinv : Inv strict s L P timeline floor) (hh : s.handle = some h)
    {previous : Root} (hcleanup : h.cleanup = some previous) {n : ℕ}
    (hn : n < previous.generation) :
    ∃ P, Inv strict { s with dir :=
        { s.dir with segments := s.dir.segments.filter fun segment => segment.number ≠ n } }
      L P timeline floor := by
  have hh' := hinv.handle h hh
  have hlt : n < floor := hn.trans_le (hh'.cleanup_le previous hcleanup)
  refine ⟨_, hinv.keep hh (hinv.stored.remove hlt)
    { hh' with job := fun ready job hjob => ?_ } fun hs =>
      hinv.stored.published_remove hlt (hinv.root_synced hs h hh) hh'.floor_le⟩
  have hj := hh'.job ready job hjob
  exact ⟨hj.generation, hj.fresh, hj.lsn, hj.lsn_le, hj.state, hj.built⟩

/-- **The cleanup removes a table file.** -/
theorem removeTable (hinv : Inv strict s L P timeline floor) (hh : s.handle = some h)
    {previous : Root} (hcleanup : h.cleanup = some previous) {id : FileId}
    (hid : id ∉ previous.fileIds ∧ id ∉ h.root.fileIds) :
    Inv strict { s with dir :=
        { s.dir with tables := s.dir.tables.filter fun file => file.id ≠ id } }
      L P timeline floor := by
  have hh' := hinv.handle h hh
  refine hinv.keep hh (hinv.stored.of_segments rfl rfl ?_ fun r hr hle f hf => ?_)
    { hh' with job := fun _ job hjob => ?_ } fun hs => hinv.root_synced hs h hh
  · exact hinv.stored.tables.sublist (List.filter_sublist.map _)
  · refine List.mem_filter.mpr ⟨hinv.stored.files r hr hle f hf, ?_⟩
    simp only [ne_eq, decide_eq_true_eq]
    rintro rfl
    rcases hh'.cleanup_roots previous hcleanup r hr hle with rfl | rfl
    · exact hid.1 (List.mem_map_of_mem hf)
    · exact hid.2 (List.mem_map_of_mem hf)
  · have := hh'.job_none (by simp [hcleanup])
    rw [hjob] at this
    cases this

/-- **The end of a cleanup.** -/
theorem cleanupDone (hinv : Inv strict s L P timeline floor) (hh : s.handle = some h) :
    Inv strict { s with handle := some { h with cleanup := none } } L P timeline floor := by
  have hh' := hinv.handle h hh
  refine hinv.keep rfl hinv.stored
    { hh' with
      job := fun ready job hjob => ?_
      job_none := fun hne => absurd rfl hne
      cleanup_le := fun previous hp => by cases hp
      cleanup_roots := fun previous hp => by cases hp } fun hs => hinv.root_synced hs h hh
  have hj := hh'.job ready job hjob
  exact ⟨hj.generation, hj.fresh, hj.lsn, hj.lsn_le, hj.state, hj.built⟩

/-! ### Crash and reopening -/

/-- **A crash.** What is acknowledged lies in front of the cut. -/
theorem crash (hinv : Inv strict s L P timeline floor) {length : ℕ}
    (hlength : ∀ segment ∈ s.dir.segments, segment.number = s.writing → segment.durable ≤ length) :
    ∃ L P k, Inv (S := S) strict
      { s with dir := s.dir.modify s.writing (Segment.cut length), handle := none }
      L P (timeline.take k) floor := by
  have hstored := hinv.stored
  have hsound := hstored.sound
  by_cases hex : ∃ a ∈ L, a.number = s.writing
  swap
  · -- The segment written last is gone, so the cut touches nothing.
    have hdir : s.dir.modify s.writing (Segment.cut length) = s.dir := by
      have hsame : ∀ segment ∈ s.dir.segments, segment.number ≠ s.writing := by
        rw [hstored.segments]
        intro segment hs hn
        obtain ⟨t, ht, rfl⟩ := List.mem_map.mp hs
        exact hex ⟨t, hstored.sublist.subset ht, hn⟩
      rw [Directory.modify, List.map_congr_left fun segment hs => if_neg (hsame segment hs),
        List.map_id']
    rw [hdir]
    refine ⟨L, P, timeline.length, ?_⟩
    rw [List.take_length]
    exact { hinv with
      handle := fun h' heq => by cases heq
      root_synced := fun _ h' heq => by cases heq }
  obtain ⟨a, haL, hwriting⟩ := hex
  have haP := hstored.keep a haL (hwriting ▸ hstored.floor_le.1)
  have haS : a.segment ∈ s.dir.segments := by
    rw [hstored.segments]
    exact List.mem_map_of_mem haP
  have honly : ∀ t ∈ L, t.number = s.writing → t = a := fun t ht hn =>
    Log.eq_of_number hsound.ascending ht haL (hn.trans hwriting.symm)
  obtain ⟨k, torn, htorn, hk, hbytes⟩ := LogSegment.exists_cut
    (fun f hf => (hsound.frames a haL f hf).valid) (hsound.torn a haL) (hsound.synced_le a haL)
    (hlength _ haS hwriting)
  have hnew := hstored.cut haL hwriting hbytes hk htorn
  set cutoff := (L.below s.writing).transactions.length +
    (LogSegment.txsOf (a.frames.take k)).length
  obtain ⟨n, hn, hle⟩ := hinv.acked_synced
  have hcutoff : n ≤ cutoff := by
    obtain ⟨d, hd, -, hdw, hn⟩ := hn
    rcases hdw.lt_or_eq with hlt | heq
    · have htake : (LogSegment.txsOf (d.frames.take d.synced)).length ≤
          (LogSegment.txsOf d.frames).length :=
        ((List.take_sublist _ _).filter _).length_le
      have := hsound.length_below_le hd hlt
      omega
    · obtain rfl := honly d hd heq
      have htake : (LogSegment.txsOf (d.frames.take d.synced)).length ≤
          (LogSegment.txsOf (d.frames.take k)).length :=
        ((List.take_prefix_take_left hk).sublist.filter _).length_le
      rw [heq] at hn
      omega
  refine ⟨_, _, cutoff,
    { stored := hnew
      acked := fun x hx => mem_numbered_take (hinv.acked hx) ((hle x hx).trans hcutoff)
      acked_synced := ⟨n, hn.modify (fun _ => rfl) (fun _ _ _ hd => hd) fun t ht hn hpos => ?_, hle⟩
      submitted := fun x hx => hinv.submitted (numbered_take_subset _ _ hx)
      handle := fun h' heq => by cases heq
      sealed_synced := fun hs => (hinv.sealed_synced hs).modify hstored.writing (fun _ => rfl)
        fun t ht hn hne hnil => ?_
      root_synced := fun _ h' heq => by cases heq }⟩
  · rw [honly t ht hn] at hpos ⊢
    exact ⟨hpos, LogSegment.take_synced_cut hk torn⟩
  · simp [LogSegment.cut, hnil] at hne

/-- **A directory opens** in every state: on its newest root, with all transactions whose
frames are whole. -/
theorem exists_open (hinv : Inv strict s L P timeline floor) :
    ∃ o a state, openWithOptions E s.dir = .ok o ∧ o.root ∈ P.roots ∧
      (∀ r ∈ L.roots, r.generation ≤ o.root.generation) ∧ floor ≤ o.root.generation ∧
      L.headed.getLast? = some a ∧ o.active = a.number ∧ o.lsn = timeline.length ∧
      S.run S.initial 0 timeline = some state ∧ S.Denotes o.view state ∧
      o.replayed = numbered o.root.lsn (timeline.drop o.root.lsn) ∧
      o.dir = s.dir.modify a.number (Segment.setLen (frameBytes a.frames).length) ∧
      (o.nextGeneration + 1 ≤ maxU64 → ∀ t ∈ L, t.number < o.nextGeneration) := by
  have hstored := hinv.stored
  have hsound := hstored.sound
  have hPL : ∀ {r}, r ∈ P.roots → r ∈ L.roots := fun hr => by
    obtain ⟨t, ht, hf⟩ := Log.mem_roots.mp hr
    exact Log.mem_roots.mpr ⟨t, hstored.sublist.subset ht, hf⟩
  obtain ⟨anchor, ⟨t₀, ht₀, f₀, hf₀, hfr₀⟩, hanchor⟩ := hstored.anchor
  have hanchor_mem : anchor ∈ P.roots :=
    Log.mem_roots.mpr ⟨t₀, ht₀, f₀, List.mem_of_mem_take hf₀, hfr₀⟩
  have ht₀ne := List.ne_nil_of_mem (List.mem_of_mem_take hf₀)
  obtain ⟨root, hroot, hnewest⟩ := exists_newest (List.ne_nil_of_mem hanchor_mem)
  have hfloor : floor ≤ root.generation := hanchor.trans (hnewest anchor hanchor_mem)
  -- The last segment with frames is not older than the floor, so it is still there.
  obtain ⟨a, ha⟩ : ∃ a, L.headed.getLast? = some a := by
    have : t₀ ∈ L.headed :=
      List.mem_filter.mpr ⟨hstored.sublist.subset ht₀, by simpa using ht₀ne⟩
    exact ⟨_, List.getLast?_eq_some_getLast (List.ne_nil_of_mem this)⟩
  obtain ⟨haL, hane, hale⟩ := Log.number_le_of_getLast? hsound.ascending ha
  have haP := hstored.keep a haL (hstored.floor_le.2 a ha)
  have hasc := hsound.ascending.sublist hstored.sublist
  have haPlast : P.headed.getLast? = some a := by
    obtain ⟨b, hb⟩ : ∃ b, P.headed.getLast? = some b := by
      have : a ∈ P.headed := List.mem_filter.mpr ⟨haP, by simpa using hane⟩
      exact ⟨_, List.getLast?_eq_some_getLast (List.ne_nil_of_mem this)⟩
    obtain ⟨hbP, hbne, hble⟩ := Log.number_le_of_getLast? hasc hb
    have hbL := hstored.sublist.subset hbP
    rw [hb, Log.eq_of_number hsound.ascending hbL haL
      (le_antisymm (hale b hbL hbne) (hble a haP hane))]
  obtain ⟨mid, hmid, hload⟩ := hstored.denotes root (hPL hroot)
  obtain ⟨state, hstate⟩ := hstored.runs
  have hrun : S.run mid root.lsn (timeline.drop root.lsn) = some state := by
    have hlen := hsound.lsn_le (hPL hroot)
    have := hstate
    rw [← List.take_append_drop root.lsn timeline, Semantics.run_append, hmid, Option.bind_some,
      Nat.zero_add, List.length_take, min_eq_left hlen] at this
    exact this
  obtain ⟨o, last, hopen, rfl, hactive, hlsn, hview, hreplayed, hdir, hlast, hnext⟩ :=
    open_sound (S := S) hstored.control hstored.segments hsound hstored.sublist hroot
      (fun t ht hle => hstored.keep t ht (hfloor.trans hle)) hnewest
      (verifyFiles_eq_ok hstored.tables (hstored.files root (hPL hroot) hfloor)) haPlast hload hrun
      hstored.length_le
  have hlastP : ∀ t ∈ P, t.number ≤ last.number := by
    intro t ht
    obtain ⟨front, hfront⟩ := List.getLast?_eq_some_iff.mp hlast
    rw [hfront, List.pairwise_append] at hasc
    rw [hfront, List.mem_append] at ht
    rcases ht with ht | ht
    · exact (hasc.2.2 t ht last (by simp)).le
    · rw [List.mem_singleton.mp ht]
  have hnumber : ∀ t ∈ L, t.number ≤ last.number := by
    intro t ht
    by_cases hle : floor ≤ t.number
    · exact hlastP t (hstored.keep t ht hle)
    · have := hstored.floor_le.2 a ha
      have := hlastP a haP
      omega
  refine ⟨o, a, state, hopen, hroot, fun r hr => ?_, hfloor, ha, hactive, hlsn, hstate, hview,
    hreplayed, hdir, fun hmax t ht => ?_⟩
  · obtain ⟨t, ht, f, hf, hfr⟩ := Log.mem_roots.mp hr
    by_cases hle : floor ≤ t.number
    · exact hnewest r (Log.mem_roots.mpr ⟨t, hstored.keep t ht hle, f, hf, hfr⟩)
    · have := hsound.generation_le_number ht hf hfr
      omega
  · have hle := hnumber t ht
    have hsat : saturatingAdd last.number 1 ≤ o.nextGeneration := by
      rw [hnext]
      exact le_max_right _ _
    exact hle.trans_lt (lt_of_saturatingAdd_le hsat hmax)

/-- **Reopening.** The durability clauses need the newest root to be synced, or the
truncation to sync it. -/
theorem reopen (hinv : Inv strict s L P timeline floor) {o : Opened E} {state : S.State}
    (hopen : openWithOptions E s.dir = .ok o) (hstate : S.Denotes o.view state)
    (hroot : strict → ∃ t ∈ P, ∃ f ∈ if t.torn = [] then t.frames.take t.synced else t.frames,
      ∃ r, LogSegment.frameRoot f = some r ∧ ∀ r' ∈ P.roots, r'.generation ≤ r.generation) :
    ∃ L P, Inv strict
      { s with dir := o.dir, writing := o.active, handle := some (o.handle state) }
      L P timeline floor := by
  have hstored := hinv.stored
  have hsound := hstored.sound
  obtain ⟨o', a, st, hopen', horoot, hnewest, hfloor, ha, hactive, hlsn, hst, hview, -, hdir,
    hnext⟩ := hinv.exists_open
  obtain rfl : o' = o := by
    rw [hopen] at hopen'
    cases hopen'
    rfl
  obtain rfl : st = state := S.denotes_unique hview hstate
  obtain ⟨haL, hane, hale⟩ := Log.number_le_of_getLast? hsound.ascending ha
  have honly : ∀ t ∈ L, t.number = a.number → t = a := fun t ht hn =>
    Log.eq_of_number hsound.ascending ht haL hn
  have hnew := hstored.truncate ha
  rw [← hdir] at hnew
  have hroots : ∀ r, r ∈ (L.modify a.number LogSegment.truncate).roots ↔ r ∈ L.roots := by
    intro r
    simp only [Log.mem_roots]
    constructor
    · rintro ⟨t, ht, hf⟩
      rcases Log.mem_modify.mp ht with ⟨u, hu, -, rfl⟩ | ⟨ht, -⟩
      · exact ⟨u, hu, hf⟩
      · exact ⟨t, ht, hf⟩
    · rintro ⟨t, ht, hf⟩
      by_cases hn : t.number = a.number
      · exact ⟨_, Log.mem_modify.mpr (Or.inl ⟨t, ht, hn, rfl⟩), hf⟩
      · exact ⟨t, Log.mem_modify.mpr (Or.inr ⟨ht, hn⟩), hf⟩
  have hlast : (L.modify a.number LogSegment.truncate).headed.getLast? = some a.truncate :=
    Log.headed_modify hsound.ascending ha hane
  have hsealed : ∀ t ∈ L, t.frames ≠ [] → t.number ≠ a.number → t.torn = [] := fun t ht htf hn =>
    hsound.sealed t ht a haL (lt_of_le_of_ne (hale t ht htf) hn) htf hane
  refine ⟨L.modify a.number LogSegment.truncate, P.modify a.number LogSegment.truncate,
    { stored := hactive ▸ hnew
      acked := hinv.acked
      acked_synced := ?_
      submitted := hinv.submitted
      handle := ?_
      sealed_synced := fun hs => (hinv.sealed_synced hs).modify
        (fun t ht hlt => Log.frames_eq_nil_of_headed hsound.ascending ha ht hlt) (fun _ => rfl)
        fun _ _ _ hne => hne
      root_synced := ?_ }⟩
  · obtain ⟨n, hn, hle⟩ := hinv.acked_synced
    rw [hactive]
    refine ⟨n, hn.modify (fun _ => rfl)
      (fun d hd hpos _ => hale d hd (hsound.frames_ne_nil hd hpos)) fun t ht _ hpos =>
        ⟨?_, LogSegment.take_synced_truncate t⟩, hle⟩
    have := hsound.synced_le t ht
    simp only [LogSegment.truncate]
    split <;> omega
  · rintro h' ⟨⟩
    exact
      { root_mem := by
          obtain ⟨t, ht, hf⟩ := Log.mem_roots.mp horoot
          exact (hroots _).mpr (Log.mem_roots.mpr ⟨t, hstored.sublist.subset ht, hf⟩)
        floor_le := hfloor
        next := fun hmax => Log.number_lt_modify (fun _ => rfl) (hnext hmax)
        newest := fun _ r hr => hnewest r ((hroots r).mp hr)
        lsn := fun _ => hlsn
        state := fun _ => hst
        active := fun _ => ⟨_, hlast, hactive.symm⟩
        whole := fun _ t ht htf => by
          rcases Log.mem_modify.mp ht with ⟨u, -, -, rfl⟩ | ⟨ht, hn⟩
          · rfl
          · exact hsealed t ht htf hn
        job := fun _ job hjob => by cases hjob
        job_none := fun _ => rfl
        cleanup_le := fun previous hp => by cases hp
        cleanup_roots := fun previous hp => by cases hp
        replaced := fun previous hp => by cases hp }
  · rintro hs h' ⟨⟩
    obtain ⟨t, ht, f, hf, r, hfr, hmax⟩ := hroot hs
    have htL := hstored.sublist.subset ht
    have hmem : f ∈ t.frames := by
      split at hf
      · exact List.mem_of_mem_take hf
      · exact hf
    have hrL : r ∈ L.roots := Log.mem_roots.mpr ⟨t, htL, f, hmem, hfr⟩
    obtain ⟨u, hu, g, hg, hgr⟩ := Log.mem_roots.mp horoot
    have hoL : o'.root ∈ L.roots :=
      Log.mem_roots.mpr ⟨u, hstored.sublist.subset hu, g, hg, hgr⟩
    obtain rfl : r = o'.root := hsound.unique r hrL _ hoL
      (le_antisymm (hnewest r hrL) (hmax _ horoot))
    by_cases hn : t.number = a.number
    · refine ⟨_, Log.mem_modify.mpr (Or.inl ⟨t, ht, hn, rfl⟩), f, ?_, hfr⟩
      simp only [LogSegment.truncate]
      split at hf <;> rename_i htorn
      · rwa [if_pos htorn]
      · rwa [if_neg htorn, List.take_length]
    · have htorn := hsealed t htL (List.ne_nil_of_mem hmem) hn
      rw [if_pos htorn] at hf
      exact ⟨t, Log.mem_modify.mpr (Or.inr ⟨ht, hn⟩), f, hf, hfr⟩

end Inv

/-! ### The condition on a step -/

/-- The complete frames a reader finds in `data`. -/
def framesOf (data : Bytes) : List Frame :=
  match readRecords (fun frames f => .ok (frames ++ [f])) [] data with
  | .ok frames => frames
  | .error _ => []

namespace Segment

/-- The complete frames of a segment. -/
def frames (segment : Segment) : List Frame := framesOf segment.bytes

/-- The complete frames within the synced bytes of a segment. -/
def durableFrames (segment : Segment) : List Frame :=
  framesOf (segment.bytes.take segment.durable)

/-- The segment ends in an incomplete frame, so opening truncates and syncs it. -/
def IsTorn (segment : Segment) : Prop := (frameBytes segment.frames).length ≠ segment.bytes.length

instance (segment : Segment) : Decidable segment.IsTorn := inferInstanceAs (Decidable (_ ≠ _))

end Segment

/-- What a step must meet so that nothing rests on bytes that were not synced: a capture
seals a segment that is synced, and the newest root a reopening finds is synced, or in
a segment it truncates and syncs. -/
def SyncedStep (s : System S) : Action → Prop
  | .capture _ => ∀ h, s.handle = some h → ∀ segment ∈ s.dir.segments,
      segment.number = h.active → segment.durable = segment.bytes.length
  | .reopen => ∃ segment ∈ s.dir.segments,
      ∃ f ∈ if segment.IsTorn then segment.frames else segment.durableFrames,
      ∃ r, LogSegment.frameRoot f = some r ∧
        ∀ segment' ∈ s.dir.segments, ∀ f' ∈ segment'.frames, ∀ r',
          LogSegment.frameRoot f' = some r' → r'.generation ≤ r.generation
  | _ => True

/-- What a step makes of the transactions of the log: a commit adds a prefix of its own,
all of them when it succeeds, and a crash leaves a prefix of what there was. -/
def Continues (timeline timeline' : List Bytes) : Action → Prop
  | .commit payloads o => ∃ written, written <+: payloads ∧
      (o.failed = false → written = payloads) ∧ timeline' = timeline ++ written
  | .crash _ => timeline' <+: timeline
  | _ => timeline' = timeline

section Frames

variable {t : LogSegment}

theorem framesOf_frameBytes {frames : List Frame} {torn : Bytes} (hframes : ∀ f ∈ frames, f.Valid)
    (htorn : TornLog.Torn Frame.format Frame.Valid torn) :
    framesOf (frameBytes frames ++ torn) = frames := by
  have hfold : ∀ acc : List Frame, frames.foldlM (fun acc f => .ok (acc ++ [f])) acc =
      (.ok (acc ++ frames) : Result (List Frame)) := by
    clear hframes
    induction frames with
    | nil => simp
    | cons f fs ih =>
      intro acc
      rw [List.foldlM_cons, ok_bind, ih, List.append_assoc, List.singleton_append]
  rw [framesOf, readRecords_frames _ _ hframes htorn, hfold]
  rfl

theorem LogSegment.frames_segment (hframes : ∀ f ∈ t.frames, f.Valid)
    (htorn : TornLog.Torn Frame.format Frame.Valid t.torn) : t.segment.frames = t.frames :=
  framesOf_frameBytes hframes htorn

theorem LogSegment.take_durable (t : LogSegment) :
    t.segment.bytes.take t.segment.durable = frameBytes (t.frames.take t.synced) := by
  have hsplit : frameBytes t.frames =
      frameBytes (t.frames.take t.synced) ++ frameBytes (t.frames.drop t.synced) := by
    rw [← frameBytes_append, List.take_append_drop]
  rw [segment_bytes, segment_durable, hsplit, List.append_assoc, List.take_left]

theorem LogSegment.durableFrames_segment (hframes : ∀ f ∈ t.frames, f.Valid) :
    t.segment.durableFrames = t.frames.take t.synced := by
  rw [Segment.durableFrames, take_durable, ← List.append_nil (frameBytes _)]
  exact framesOf_frameBytes (fun f hf => hframes f (List.mem_of_mem_take hf)) TornLog.torn_nil

theorem LogSegment.isTorn_segment (hframes : ∀ f ∈ t.frames, f.Valid)
    (htorn : TornLog.Torn Frame.format Frame.Valid t.torn) :
    t.segment.IsTorn ↔ t.torn ≠ [] := by
  rw [Segment.IsTorn, frames_segment hframes htorn, segment_bytes, List.length_append, ne_eq,
    Nat.left_eq_add, List.length_eq_zero_iff]

/-- A segment whose bytes are all synced has all its frames synced. -/
theorem LogSegment.synced_eq (hsynced : t.synced ≤ t.frames.length)
    (h : t.segment.durable = t.segment.bytes.length) : t.synced = t.frames.length := by
  refine hsynced.antisymm (Nat.le_of_not_lt fun hlt => ?_)
  have hsplit := congrArg (fun l => (frameBytes l).length) (List.take_append_drop t.synced t.frames)
  obtain ⟨f, fs, hfs⟩ := List.exists_cons_of_ne_nil (List.drop_eq_nil_iff.not.mpr (not_le.mpr hlt))
  rw [segment_durable, segment_bytes, List.length_append] at h
  simp only [frameBytes_append, hfs, frameBytes_cons, List.length_append, Frame.length_bytes]
    at hsplit
  omega

end Frames

namespace Inv

variable {strict : Prop} {s : System S} {L P : Log} {timeline : List Bytes} {floor : ℕ}

/-- A capture under the condition seals a synced segment. -/
theorem sealed_of_syncedStep (hinv : Inv strict s L P timeline floor) {h : Handle S}
    (hh : s.handle = some h) (ready : h.poisoned = false) {o : WriteOutcome}
    (hcond : SyncedStep s (.capture o)) {a : LogSegment} (ha : L.headed.getLast? = some a) :
    a.synced = a.frames.length := by
  obtain ⟨b, hb, hactive⟩ := (hinv.handle h hh).active ready
  obtain rfl : a = b := Option.some.inj (ha.symm.trans hb)
  have hsound := hinv.stored.sound
  obtain ⟨haL, -, -⟩ := Log.number_le_of_getLast? hsound.ascending ha
  refine LogSegment.synced_eq (hsound.synced_le a haL) (hcond h hh _ ?_ hactive)
  rw [hinv.stored.segments]
  exact List.mem_map_of_mem (hinv.stored.keep a haL (hinv.stored.floor_le.2 a ha))

/-- A reopening under the condition finds the newest root synced. -/
theorem root_of_syncedStep (hinv : Inv strict s L P timeline floor)
    (hcond : SyncedStep s .reopen) :
    ∃ t ∈ P, ∃ f ∈ if t.torn = [] then t.frames.take t.synced else t.frames,
      ∃ r, LogSegment.frameRoot f = some r ∧ ∀ r' ∈ P.roots, r'.generation ≤ r.generation := by
  have hsound := hinv.stored.sound
  have hvalid : ∀ t ∈ P, ∀ f ∈ t.frames, f.Valid := fun t ht f hf =>
    (hsound.frames t (hinv.stored.sublist.subset ht) f hf).valid
  have htorn : ∀ t ∈ P, TornLog.Torn Frame.format Frame.Valid t.torn := fun t ht =>
    hsound.torn t (hinv.stored.sublist.subset ht)
  rw [SyncedStep, hinv.stored.segments] at hcond
  obtain ⟨segment, hs, f, hf, r, hfr, hmax⟩ := hcond
  obtain ⟨t, ht, rfl⟩ := List.mem_map.mp hs
  refine ⟨t, ht, f, ?_, r, hfr, fun r' hr' => ?_⟩
  · rw [LogSegment.frames_segment (hvalid t ht) (htorn t ht),
      LogSegment.durableFrames_segment (hvalid t ht)] at hf
    by_cases hnil : t.torn = []
    · rw [if_neg ((LogSegment.isTorn_segment (hvalid t ht) (htorn t ht)).not.mpr
        (not_not.mpr hnil))] at hf
      rwa [if_pos hnil]
    · rw [if_pos ((LogSegment.isTorn_segment (hvalid t ht) (htorn t ht)).mpr hnil)] at hf
      rwa [if_neg hnil]
  · obtain ⟨u, hu, g, hg, hgr⟩ := Log.mem_roots.mp hr'
    refine hmax u.segment (List.mem_map_of_mem hu) g ?_ r' hgr
    rwa [LogSegment.frames_segment (hvalid u hu) (htorn u hu)]

/-- **Every step keeps the invariant**, and its durability clauses when the step meets
the condition. -/
theorem step {limits : WalLimits} {s' : System S} {a : Action}
    (hinv : Inv strict s L P timeline floor) (hstep : Step S limits s a s')
    (hcond : strict → SyncedStep s a) :
    ∃ L P timeline' floor, Inv strict s' L P timeline' floor ∧ Continues timeline timeline' a := by
  cases hstep with
  | commit h payloads state o hh ready hstate hsize hlsn hlimit =>
    obtain ⟨L', P', written, hprefix, hall, h'⟩ := hinv.commit hh ready hstate hsize hlsn o _
    exact ⟨L', P', _, floor, h', written, hprefix, hall, rfl⟩
  | capture h o hh ready htail hcleanup hgeneration =>
    obtain ⟨L', P', h'⟩ := hinv.capture hh ready hcleanup hgeneration
      (fun hs a ha => hinv.sealed_of_syncedStep hh ready (hcond hs) ha) o
    exact ⟨L', P', timeline, floor, h', rfl⟩
  | captureFailed h left hh ready htail hcleanup hgeneration =>
    exact ⟨L, P, timeline, floor, hinv.catalogs hh _ (Nat.le_succ _), rfl⟩
  | writeTable h job file hh hjob hbuilt hgeneration hfresh =>
    exact ⟨L, P, timeline, floor, hinv.writeTable hh hjob hbuilt hfresh, rfl⟩
  | build h job root hh hjob hbuilt hgeneration hlsn hdecode hsize hfiles hdenotes =>
    exact ⟨L, P, timeline, floor,
      hinv.build hh hjob hgeneration hlsn hdecode hsize hfiles hdenotes, rfl⟩
  | install h job root o hh ready hjob hbuilt =>
    obtain ⟨L', P', floor', h'⟩ := hinv.install hh ready hjob hbuilt o _
    exact ⟨L', P', timeline, floor', h', rfl⟩
  | abandon h job hh hjob => exact ⟨L, P, timeline, floor, hinv.abandon hh, rfl⟩
  | removeSegment h previous n hh hcleanup hn =>
    obtain ⟨P', hP'⟩ := hinv.removeSegment hh hcleanup hn
    exact ⟨L, P', timeline, floor, hP', rfl⟩
  | removeCatalog h previous n hh hcleanup hn =>
    have := hinv.catalogs hh (s.dir.catalogs.filter (· ≠ n)) le_rfl
    exact ⟨L, P, timeline, floor, by rw [← hh] at this; exact this, rfl⟩
  | removeTable h previous id hh hcleanup hid =>
    exact ⟨L, P, timeline, floor, hinv.removeTable hh hcleanup hid, rfl⟩
  | cleanupDone h hh => exact ⟨L, P, timeline, floor, hinv.cleanupDone hh, rfl⟩
  | crash length hlength =>
    obtain ⟨L', P', k, h'⟩ := hinv.crash hlength
    exact ⟨L', P', _, floor, h', List.take_prefix k timeline⟩
  | reopen o state hh hopen hstate =>
    obtain ⟨L', P', h'⟩ :=
      hinv.reopen hopen hstate fun hs => hinv.root_of_syncedStep (hcond hs)
    exact ⟨L', P', timeline, floor, h', rfl⟩

/-- **The invariant holds in every state a run reaches**, and its durability clauses when
all steps of the run meet the condition. -/
theorem reachable (strict : Prop) {limits : WalLimits} {condition : System S → Action → Prop}
    (hcond : strict → ∀ s a, condition s a → SyncedStep s a)
    (hs : Reachable S limits condition s) :
    ∃ L P timeline floor, Inv strict s L P timeline floor := by
  induction hs with
  | initial => exact ⟨_, _, _, _, Inv.initial strict⟩
  | step _ hmeets hstep ih =>
    obtain ⟨L, P, timeline, floor, hinv⟩ := ih
    obtain ⟨L', P', timeline', floor', hinv', -⟩ :=
      hinv.step hstep fun hs => hcond hs _ _ hmeets
    exact ⟨L', P', timeline', floor', hinv'⟩

end Inv

end EveDB
