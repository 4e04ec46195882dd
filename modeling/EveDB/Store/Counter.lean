import EveDB.Recovery.Counter
import EveDB.Recovery.Durability
import EveDB.Store.Life

/-!
# The log limit

A group that would take the uncheckpointed log above its limit is refused before any of its
frames is written (`Store.commitGroup_refused`). Together with what the counter says along a
session, that is what the limit is for (`walBytes_exact`).

The counter is a machine integer. A commit looks at a saturating sum, and recovery saturates
where it adds up what it replays, so that behind `maxU64` bytes of uncheckpointed transactions
the counter is below what there is (`exists_not_walBytes_exact`): checkpoints that are captured
and given up leave segments, and no segment has to be long for that.
-/

namespace EveDB

/-! ### A refused group -/

namespace Store

variable {env : Env}

/-- The member has no error but for a deadline that has passed. -/
def Member.Unrefused (m : Member) : Prop :=
  ∀ e, m.answer = some (.error e) → e = .deadlineExceeded

theorem verdict_error {tick : ℕ} {batch : Prepared} {e : Error}
    (h : verdict env tick batch = some (.error e)) : e = .deadlineExceeded := by
  unfold verdict at h
  split at h
  · cases h
    rfl
  · split at h
    · cases h
    · cases h

/-- What is published has a sequence for its answer, and no error. -/
theorem publishAll_unrefused {lsn : ℕ} {ms : List Member} {db : Database}
    (hms : ∀ m ∈ ms, m.Unrefused) : ∀ m ∈ (publishAll lsn ms db).1, m.Unrefused := by
  induction ms generalizing lsn db with
  | nil => exact hms
  | cons m ms ih =>
    obtain ⟨hm, hms⟩ := List.forall_mem_cons.mp hms
    rw [publishAll]
    split
    · refine List.forall_mem_cons.mpr ⟨?_, ih hms⟩
      rintro e ⟨⟩
    · exact List.forall_mem_cons.mpr ⟨hm, ih hms⟩

/-- What is written and published is not refused, and what is refused is not written. -/
theorem writeGroup_refused {write : WalWrite} {frames : List Bytes} {ms ms' : List Member}
    {db db' : Database} (hms : ∀ m ∈ ms, m.Unrefused)
    (h : writeGroup write frames ms db = (ms', db')) {resource : String} {n : ℕ}
    (hrefused : some (.error (.limitExceeded resource n)) ∈ ms'.map Member.answer) : db' = db := by
  have hnone {ms : List Member} (hms : ∀ m ∈ ms, m.Unrefused) :
      some (.error (.limitExceeded resource n)) ∉ ms.map Member.answer := by
    rintro hmem
    obtain ⟨m, hm, hanswer⟩ := List.mem_map.mp hmem
    exact absurd (hms m hm _ hanswer) Error.noConfusion
  unfold writeGroup at h
  dsimp only at h
  split at h
  · cases h
    rfl
  split at h
  · cases h
    rfl
  split at h
  · next message hfailure =>
    -- a failed write leaves the outcome open, which is another answer
    cases h
    obtain ⟨m', hm', hanswer⟩ := List.mem_map.mp hrefused
    obtain ⟨m, hm, rfl⟩ := List.mem_map.mp hm'
    by_cases hactive : m.active
    · rw [if_pos hactive] at hanswer
      cases hanswer
    · rw [if_neg hactive] at hanswer
      exact absurd (hms m hm _ hanswer) Error.noConfusion
  · cases h
    exact absurd hrefused (hnone (publishAll_unrefused hms))

/-- **A group that is refused by a limit** leaves the database as it was, or as the checkpoint
that was due has left it. -/
theorem commitGroup_refused {checkpoint : Database → Result Unit × Database} {write : WalWrite}
    {tick : ℕ} {batches : List Prepared} {answers : List (Option (Result ℕ))} {db db' : Database}
    (h : commitGroup env checkpoint write tick batches db = (answers, db')) {resource : String}
    {n : ℕ} (hrefused : some (.error (.limitExceeded resource n)) ∈ answers) :
    db' = db ∨ db' = (checkpoint db).2 := by
  unfold commitGroup at h
  dsimp only at h
  split at h
  · cases h
    exact Or.inl rfl
  have hdue (due : Prop) [Decidable due] : (if due then checkpoint db else (.ok (), db)).2 = db ∨
      (if due then checkpoint db else (.ok (), db)).2 = (checkpoint db).2 := by
    split
    · exact Or.inr rfl
    · exact Or.inl rfl
  have hdb₁ := hdue (¬ db.sharedMode ∧ db.options.checkpointBytes ≤ db.wal.length ∧
    db.state.root.manifest.lsn < db.state.lsn)
  generalize (if ¬ db.sharedMode ∧ db.options.checkpointBytes ≤ db.wal.length ∧
    db.state.root.manifest.lsn < db.state.lsn then checkpoint db else (.ok (), db)) = due at h hdb₁
  obtain ⟨_ | _, db₁⟩ := due
  · cases h
    exact hdb₁
  dsimp only at h
  split at h
  · cases h
    exact hdb₁
  · next ms tick₁ hms =>
  obtain ⟨bs, rfl, -⟩ := rebindGroup_spec hms
  have hfresh : ∀ m ∈ bs.map (fun batch => (⟨batch, none⟩ : Member)), m.Unrefused := by
    intro m hm
    obtain ⟨b, -, rfl⟩ := List.mem_map.mp hm
    rintro e ⟨⟩
  split at h
  · cases h
    exact hdb₁
  · cases h
    exact hdb₁
  · next frames ms' hrounds =>
    have hms' := rounds_forall (A := Member.Unrefused) (fun m tick _ e he => verdict_error he)
      (fun m n hm => hm) hrounds hfresh
    obtain ⟨rfl, rfl⟩ := Prod.mk.inj h
    have hleft : (writeGroup write frames ms' db₁).2 = db₁ :=
      writeGroup_refused hms' rfl hrefused
    rw [hleft]
    exact hdb₁

end Store

/-! ### The counter of a session -/

section Sessions

variable {E : Engine} {S : Semantics E}

/-- **The counter is what there is** in the directory. -/
theorem Session.walBytes_eq {limits : WalLimits} {opened : ℕ} {s : System S}
    (hs : Session S FitsStep limits opened s) {h : Handle S} (hh : s.handle = some h) :
    h.walBytes = s.dir.uncheckpointed h.root.lsn h.lsn := by
  obtain ⟨⟨L, P, timeline, floor, hinv, hcounted⟩, -⟩ := hs.counted
  have hhandle := hinv.handle h hh
  rw [hinv.stored.uncheckpointed_eq hhandle.root_mem hhandle.floor_le]
  exact (hcounted h hh).bytes

/-- **The counter is exact.** In every session whose uncheckpointed log fits a counter it is the
length of the transactions behind the root up to the current one, and above the limit only as far
as it was when the database was opened. A group that is refused by the limit writes nothing. -/
theorem walBytes_exact {limits : WalLimits} {opened : ℕ} {s : System S}
    (hs : Session S FitsStep limits opened s) :
    (∀ h, s.handle = some h →
      h.walBytes = s.dir.uncheckpointed h.root.lsn h.lsn ∧
      h.walBytes ≤ max limits.maxUncheckpointedWalBytes opened) ∧
    ∀ (env : Store.Env) (checkpoint : Store.Database → Result Unit × Store.Database)
      (write : Store.WalWrite) (tick : ℕ) (batches : List Store.Prepared)
      (answers : List (Option (Result ℕ))) (db db' : Store.Database) (n : ℕ),
      Store.commitGroup env checkpoint write tick batches db = (answers, db') →
      some (.error (.limitExceeded "uncheckpointed WAL bytes" n)) ∈ answers →
      db' = db ∨ db' = (checkpoint db).2 := by
  exact ⟨fun h hh => ⟨hs.walBytes_eq hh, hs.counted.2 h hh⟩,
    fun env checkpoint write tick batches answers db db' n hcommit hrefused =>
      Store.commitGroup_refused hcommit hrefused⟩

end Sessions

/-! ### Sessions with one segment -/

section Run

variable {ps qs : List Bytes}

theorem valid_oneSegment (hsize : ∀ p ∈ ps, p.length ≤ maxFrame) (hlen : ps.length ≤ maxU64) :
    ∀ f ∈ rootFrame Root.empty :: txFrames 0 ps, f.Valid := fun f hf =>
  ((sound_oneSegment hsize hlen (Nat.zero_le _)).frames _ (List.mem_singleton_self _) f hf).valid

/-- **What is behind the first root** of one segment. -/
theorem uncheckpointed_oneSegment (hsize : ∀ p ∈ ps, p.length ≤ maxFrame)
    (hlen : ps.length ≤ maxU64) (synced : ℕ) :
    (oneSegmentDirectory ps synced).uncheckpointed 0 ps.length =
      (frameBytes (txFrames 0 ps)).length := by
  have htxs : (oneSegmentDirectory ps synced).transactions = txFrames 0 ps := by
    have hframes :
        (LogSegment.mk 0 (rootFrame Root.empty :: txFrames 0 ps) [] synced).segment.frames =
          rootFrame Root.empty :: txFrames 0 ps :=
      LogSegment.frames_segment (valid_oneSegment hsize hlen) TornLog.torn_nil
    have hroot : LogSegment.txsOf (rootFrame Root.empty :: txFrames 0 ps) =
        LogSegment.txsOf (txFrames 0 ps) := rfl
    rw [Directory.transactions, oneSegmentDirectory, oneSegment, Log.segments, List.map_singleton,
      List.flatMap_singleton, hframes, hroot, LogSegment.txsOf_txFrames]
  rw [Directory.uncheckpointed, htxs, length_frameBytes, List.filter_eq_self.mpr]
  intro f hf
  obtain ⟨-, hlt, hle, -⟩ := mem_txFrames hf
  exact decide_eq_true ⟨hlt, (Nat.zero_add ps.length) ▸ hle⟩

/-- What a reopening counts is a counter. -/
theorem Step.reopen_walBytes_le {E : Engine} {S : Semantics E} {limits : WalLimits}
    {s s' : System S} (hstep : Step S limits s .reopen s') {h : Handle S}
    (hh : s'.handle = some h) : h.walBytes ≤ maxU64 := by
  cases hstep with
  | reopen o state hnone hopen hstate =>
    cases hh
    have hcounts : o.walBytes = min (replayedBytes o.replayed) maxU64 :=
      openWithOptions_counts hopen
    exact hcounts.le.trans (min_le_right _ _)

/-- A session goes on with a reopening. -/
theorem Session.reopens {E : Engine} {S : Semantics E} {condition : System S → Action → Prop}
    {limits : WalLimits} {opened : ℕ} {s : System S} (hs : Session S condition limits opened s)
    (hcond : condition s .reopen) (hh : s.handle = none) {o : Opened E}
    (hopen : openWithOptions E s.dir = .ok o) {state : S.State} (hstate : S.Denotes o.view state) :
    Session S condition limits o.walBytes
      { s with dir := o.dir, writing := o.active, handle := some (o.handle state) } :=
  hs.reopen hcond (Step.reopen s o state hh hopen hstate) rfl

variable {condition : System sequenceSemantics → Action → Prop} {limits : WalLimits} {opened : ℕ}
  {s : System sequenceSemantics}

/-- A session that reaches one segment goes on with a reopening. -/
theorem Session.reopen_oneSegment (hs : Session sequenceSemantics condition limits opened s)
    (hsize : ∀ p ∈ ps, p.length ≤ maxFrame) (hlen : ps.length ≤ maxU64) {synced : ℕ}
    (hsynced : synced ≤ ps.length + 1) (hdir : s.dir = oneSegmentDirectory ps synced)
    (hh : s.handle = none) (hcond : condition s .reopen) :
    ∃ walBytes, walBytes ≤ maxU64 ∧ Session sequenceSemantics condition limits walBytes
      { s with
        writing := 0
        handle := some
          { root := Root.empty, lsn := ps.length, active := 0, nextGeneration := 1, walBytes,
            poisoned := false, tail := false, job := none, cleanup := none, replaced := none,
            state := ps.length } } := by
  obtain ⟨walBytes, hstep⟩ :=
    @step_oneSegment limits ps synced hsize hlen hsynced s hdir hh
  exact ⟨walBytes, hstep.reopen_walBytes_le rfl, hs.reopen hcond hstep rfl⟩

/-- The first opening fits. -/
theorem fitsStep_initial : FitsStep (System.initial sequenceSemantics) .reopen := by
  intro o hopen
  obtain ⟨o', hopen', -, hroot, -, hlsn, -⟩ :=
    @open_oneSegment _ sequenceSemantics [] 1 (fun p hp => absurd hp List.not_mem_nil)
      (Nat.zero_le _) le_rfl _ (sequenceSemantics_run_initial [])
  rw [oneSegmentDirectory_nil] at hopen'
  obtain rfl : o = o' := Except.ok.inj (hopen.symm.trans hopen')
  have hnone := @uncheckpointed_oneSegment [] (fun p hp => absurd hp List.not_mem_nil)
    (Nat.zero_le _) 1
  rw [oneSegmentDirectory_nil] at hnone
  have hdir : (System.initial sequenceSemantics).dir = initializeDirectory := rfl
  have hlsn₀ : Root.empty.lsn = 0 := rfl
  rw [hdir, hroot, hlsn, hlsn₀, hnone]
  exact Nat.zero_le _

/-- A checkpoint is built and installed while commits go on. -/
theorem walBytes_exact_run : ∃ s : System sequenceSemantics, ∃ h, s.handle = some h ∧
    s.acked = [(1, [7]), (2, [8]), (3, [9])] ∧ h.root.lsn = 1 ∧ h.lsn = 3 ∧ h.walBytes = 82 ∧
      s.dir.uncheckpointed h.root.lsn h.lsn = 82 := by
  have h₀ : Session sequenceSemantics FitsStep ⟨maxU64⟩ 0 _ := Session.initial ⟨maxU64⟩
  obtain ⟨walBytes, -, h₁⟩ := @Session.reopen_oneSegment [] _ _ _ _ h₀
    (fun p hp => absurd hp List.not_mem_nil) (Nat.zero_le _) 1 le_rfl
    oneSegmentDirectory_nil.symm rfl fitsStep_initial
  have hzero : walBytes = 0 := by
    have hnone := @uncheckpointed_oneSegment [] (fun p hp => absurd hp List.not_mem_nil)
      (Nat.zero_le _) 1
    rw [oneSegmentDirectory_nil] at hnone
    exact (h₁.walBytes_eq rfl).trans hnone
  subst hzero
  have h₂ := h₁.step (a := .commit [[7]] .ok) (by rintro h ⟨⟩; decide +kernel) Action.noConfusion
    (Step.commit _ _ [[7]] (1 : ℕ) .ok rfl rfl rfl (by simp [maxFrame])
      (show 0 + 1 ≤ maxU64 by decide) (min_le_right _ _))
  have h₃ := h₂.step (a := .capture .ok) trivial Action.noConfusion
    (Step.capture _ _ .ok rfl rfl rfl rfl (show 1 + 1 ≤ maxU64 by decide))
  have h₄ := h₃.step (a := .commit [[8]] .ok) (by rintro h ⟨⟩; decide +kernel) Action.noConfusion
    (Step.commit _ _ [[8]] (2 : ℕ) .ok rfl rfl rfl (by simp [maxFrame])
      (show 1 + 1 ≤ maxU64 by decide) (min_le_right _ _))
  have h₅ := h₄.step (a := .build _) trivial Action.noConfusion
    (Step.build _ _ _ (historyRoot 1 1 []) rfl rfl rfl rfl rfl
      ((valid_historyRoot (by decide) (by decide) (Or.inl rfl)).decode_encode (by decide +kernel))
      (by decide +kernel) (fun f hf => absurd hf List.not_mem_nil) rfl)
  have h₆ := h₅.step (a := .install .ok) trivial Action.noConfusion
    (Step.install _ _ _ _ .ok rfl rfl rfl rfl)
  have h₇ := h₆.step (a := .commit [[9]] .ok) (by rintro h ⟨⟩; decide +kernel) Action.noConfusion
    (Step.commit _ _ [[9]] (3 : ℕ) .ok rfl rfl rfl (by simp [maxFrame])
      (show 2 + 1 ≤ maxU64 by decide) (min_le_right _ _))
  have hbytes := ((walBytes_exact h₇).1 _ rfl).1
  refine ⟨_, _, rfl, rfl, rfl, rfl, ?_, hbytes.symm.trans ?_⟩
  · decide +kernel
  · decide +kernel

/-! ### Behind the largest counter -/

theorem length_txFrames_replicate (n k m : ℕ) :
    (frameBytes (txFrames n (List.replicate k (List.replicate m 0)))).length = k * (40 + m) := by
  induction k generalizing n with
  | zero => rw [Nat.zero_mul]; rfl
  | succ k ih =>
    rw [List.replicate_succ, txFrames, frameBytes_cons, List.length_append, ih, Frame.length_bytes,
      List.length_replicate]
    ring

/-- The engine whose views are what has been replayed. -/
def listEngine : Engine where
  View := List Bytes
  load _ := []
  replay v _ p := .ok (v ++ [p])

/-- A transaction of the largest size. -/
def largest : Bytes := List.replicate maxFrame 0

/-- The bytes of a segment that holds a root and a transaction. -/
def segmentBytes : ℕ := (rootFrame Root.empty).bytes.length + (40 + maxFrame)

theorem segmentBytes_eq :
    segmentBytes = (rootFrame Root.empty).bytes.length + (40 + maxFrame) := rfl

theorem le_segmentBytes : (rootFrame Root.empty).bytes.length ≤ segmentBytes :=
  Nat.le_add_right _ _

theorem listEngine_run (v : List Bytes) (n : ℕ) (ps : List Bytes) :
    (Semantics.views listEngine).run v n ps = some (v ++ ps) := by
  induction ps generalizing v n with
  | nil => exact congrArg some (List.append_nil v).symm
  | cons p ps ih =>
    refine (ih (v ++ [p]) (n + 1)).trans ?_
    rw [List.append_assoc, List.singleton_append]

/-- What is replayed is the view, whatever the root is. -/
theorem listEngine_replayed {dir : Directory} {o : Opened listEngine}
    (h : openWithOptions listEngine dir = .ok o) : o.replayed.map Prod.snd = o.view := by
  obtain ⟨s, hs, hview, -, -, hreplayed⟩ :=
    @openWithOptions_invariant listEngine (fun s => s.replayed.map Prod.snd = s.view)
      (by
        intro root s record s' hs hrecord
        unfold replayRecord at hrecord
        dsimp only at hrecord
        split at hrecord
        · cases hrecord
          exact hs
        split at hrecord
        · cases hrecord
        split at hrecord
        · split at hrecord
          · cases hrecord
          · obtain ⟨view, hview, heq⟩ := bind_eq_ok.mp hrecord
            cases hview
            cases heq
            exact (List.map_append ..).trans (congrArg (· ++ [record.payload]) hs)
        · cases hrecord
          exact hs)
      (fun _ _ _ hs => hs) (fun _ => rfl) _ _ h
  rw [← hview, ← hreplayed, hs]

/-- **`k` transactions of the largest size** have been written, each to a segment of its own. -/
structure Filled (k : ℕ) (s : System (Semantics.views listEngine))
    (h : Handle (Semantics.views listEngine)) : Prop where
  handle : s.handle = some h
  root : h.root = Root.empty
  ready : h.poisoned = false
  tail : h.tail = false
  cleanup : h.cleanup = none
  lsn : h.lsn = k
  state : h.state = List.replicate k largest
  active : h.active = k
  next : h.nextGeneration = k + 1
  bytes : h.walBytes = k * (40 + maxFrame)
  segments : ∀ segment ∈ s.dir.segments, segment.number ≤ k ∧
    segment.bytes.length ≤ segmentBytes ∧
    (segment.number = k → segment.bytes.length + (40 + maxFrame) ≤ segmentBytes)

section Filled

variable {k : ℕ} {s : System (Semantics.views listEngine)}
  {h : Handle (Semantics.views listEngine)} {opened : ℕ}

/-- A transaction is committed, whether its write fails or not. -/
theorem Filled.commit (hf : Filled k s h) (hk : k + 1 ≤ maxU64) (o : WriteOutcome) :
    Step (Semantics.views listEngine) ⟨maxU64⟩ s (.commit [largest] o)
      { s with
        dir := s.dir.modify h.active (Segment.append o (frameBytes (txFrames h.lsn [largest])))
        writing := h.active
        handle := some (if o.failed then { h with poisoned := true } else
          { h with
            lsn := h.lsn + [largest].length
            walBytes := wrappingAdd h.walBytes (frameBytes (txFrames h.lsn [largest])).length
            state := List.replicate (k + 1) largest })
        acked := if o.failed then s.acked else s.acked ++ numbered h.lsn [largest]
        submitted := s.submitted ++ numbered h.lsn [largest] } := by
  refine Step.commit s h [largest] (List.replicate (k + 1) largest) o hf.handle hf.ready ?_ ?_ ?_
    (min_le_right _ _)
  · rw [hf.state, List.replicate_succ']
    exact listEngine_run _ _ _
  · exact List.forall_mem_singleton.mpr List.length_replicate.le
  · rw [hf.lsn]
    exact hk

theorem length_frameBytes_largest (n : ℕ) :
    (frameBytes (txFrames n [largest])).length = 40 + maxFrame :=
  (length_txFrames_replicate n 1 maxFrame).trans (Nat.one_mul _)

/-- The segments stay short when a transaction is appended to the last one. -/
theorem Filled.segments_append (hf : Filled k s h) (o : WriteOutcome) :
    ∀ segment ∈ (s.dir.modify h.active
      (Segment.append o (frameBytes (txFrames h.lsn [largest])))).segments,
      segment.number ≤ k ∧ segment.bytes.length ≤ segmentBytes := by
  intro segment hsegment
  obtain ⟨segment₀, hmem, rfl⟩ := List.mem_map.mp hsegment
  obtain ⟨hle, hlength, hlast⟩ := hf.segments segment₀ hmem
  split
  · next hnumber =>
    have hwritten : (o.written (frameBytes (txFrames h.lsn [largest]))).length ≤ 40 + maxFrame := by
      rw [← length_frameBytes_largest h.lsn]
      cases o with
      | ok => exact le_rfl
      | error n synced => exact List.length_take_le' _ _
    refine ⟨hle, ?_⟩
    dsimp only [Segment.append]
    rw [List.length_append]
    exact (Nat.add_le_add_left hwritten _).trans (hlast (hnumber.trans hf.active))
  · exact ⟨hle, hlength⟩

/-- **One more**: it is committed, and a checkpoint is captured and given up. -/
theorem Session.fill
    (hs : Session (Semantics.views listEngine) (fun _ _ => True) ⟨maxU64⟩ opened s)
    (hf : Filled k s h) (hk : (k + 1) * (40 + maxFrame) ≤ maxU64) :
    ∃ s' h', Session (Semantics.views listEngine) (fun _ _ => True) ⟨maxU64⟩ opened s' ∧
      Filled (k + 1) s' h' := by
  have hnext : k + 1 + 1 ≤ maxU64 := by
    unfold maxFrame at hk
    omega
  have h₁ := hs.step (a := .commit [largest] .ok) trivial Action.noConfusion
    (hf.commit ((Nat.le_succ _).trans hnext) .ok)
  have h₂ := h₁.step (a := .capture .ok) trivial Action.noConfusion
    (Step.capture _ _ .ok rfl hf.ready hf.tail hf.cleanup (hf.next.symm ▸ hnext))
  have h₃ := h₂.step (a := .abandon) trivial Action.noConfusion (Step.abandon _ _ _ rfl rfl)
  refine ⟨_, _, h₃,
    { handle := rfl
      root := hf.root
      ready := hf.ready
      tail := rfl
      cleanup := hf.cleanup
      lsn := congrArg (· + 1) hf.lsn
      state := rfl
      active := hf.next
      next := congrArg (· + 1) hf.next
      bytes := by
        have hsum : k * (40 + maxFrame) + (40 + maxFrame) = (k + 1) * (40 + maxFrame) :=
          (Nat.succ_mul _ _).symm
        change wrappingAdd h.walBytes _ = _
        rw [hf.bytes, length_frameBytes_largest, wrappingAdd_of_le (hsum.symm ▸ hk), hsum]
      segments := by
        intro segment hsegment
        rcases List.mem_append.mp hsegment with hold | hnew
        · obtain ⟨hle, hlength⟩ := hf.segments_append .ok segment hold
          exact ⟨hle.trans (Nat.le_succ _), hlength,
            fun hnumber => absurd hnumber (Nat.lt_succ_of_le hle).ne⟩
        · obtain rfl := List.mem_singleton.mp hnew
          have hheader : (rootFrame h.root).bytes = (rootFrame Root.empty).bytes := by rw [hf.root]
          refine ⟨hf.next.le, ?_, fun _ => ?_⟩
          · exact (congrArg List.length hheader).le.trans le_segmentBytes
          · exact (congrArg (List.length · + (40 + maxFrame)) hheader).le }⟩

theorem exists_filled (hk : k * (40 + maxFrame) ≤ maxU64) : ∃ opened s h,
    Session (Semantics.views listEngine) (fun _ _ => True) ⟨maxU64⟩ opened s ∧ Filled k s h := by
  induction k with
  | zero =>
    have h₀ : Session (Semantics.views listEngine) (fun _ _ => True) ⟨maxU64⟩ 0 _ :=
      Session.initial ⟨maxU64⟩
    obtain ⟨o, hopen, hdir, hroot, hactive, hlsn, hview, hreplayed, hnext⟩ :=
      @open_oneSegment listEngine (Semantics.views listEngine) [] 1
        (fun p hp => absurd hp List.not_mem_nil) (Nat.zero_le _) le_rfl _ (listEngine_run [] 0 [])
    rw [oneSegmentDirectory_nil] at hopen hdir
    have h₁ := h₀.reopens trivial rfl hopen (Semantics.denotes_views _)
    refine ⟨_, _, _, h₁,
      { handle := rfl
        root := hroot
        ready := rfl
        tail := rfl
        cleanup := rfl
        lsn := hlsn
        state := hview
        active := hactive
        next := hnext
        bytes := by
          have hcounts := openWithOptions_counts hopen
          rw [hreplayed] at hcounts
          exact hcounts.trans (Nat.zero_mul _).symm
        segments := by
          dsimp only
          rw [hdir]
          intro segment hsegment
          have hbytes : segment.bytes = (rootFrame Root.empty).bytes ∧ segment.number = 0 := by
            rw [List.mem_singleton.mp hsegment]
            exact ⟨rfl, rfl⟩
          rw [hbytes.1, hbytes.2, segmentBytes_eq]
          exact ⟨le_rfl, Nat.le_add_right _ _, fun _ => le_rfl⟩ }⟩
  | succ k ih =>
    obtain ⟨opened, s, h, hs, hf⟩ := ih ((Nat.mul_le_mul_right _ (Nat.le_succ k)).trans hk)
    obtain ⟨s', h', hs', hf'⟩ := hs.fill hf hk
    exact ⟨opened, s', h', hs', hf'⟩

end Filled

/-! ### The counter saturates -/

/-- Segments that are not made longer stay short. -/
theorem Directory.modify_short {dir : Directory} {n bound : ℕ} {f : Segment → Segment}
    (hf : ∀ segment, (f segment).bytes.length ≤ segment.bytes.length)
    (h : ∀ segment ∈ dir.segments, segment.bytes.length ≤ bound) :
    ∀ segment ∈ (dir.modify n f).segments, segment.bytes.length ≤ bound := by
  intro segment hsegment
  obtain ⟨segment₀, hmem, rfl⟩ := List.mem_map.mp hsegment
  split
  · exact (hf segment₀).trans (h segment₀ hmem)
  · exact h segment₀ hmem

theorem Segment.length_setLen_le {n : ℕ} (segment : Segment) :
    (segment.setLen n).bytes.length ≤ segment.bytes.length := by
  unfold setLen
  split
  · exact List.length_take_le' _ _
  · exact le_rfl

section Saturated

variable {k : ℕ} {s : System (Semantics.views listEngine)}
  {h : Handle (Semantics.views listEngine)} {opened : ℕ}

/-- Some invariant holds in every session. -/
theorem Session.inv {E : Engine} {S : Semantics E} {condition : System S → Action → Prop}
    {limits : WalLimits} {opened : ℕ} {s : System S} (hs : Session S condition limits opened s) :
    ∃ L P timeline floor, Inv False s L P timeline floor := by
  have hkeeps {limits : WalLimits} {s s' : System S} {a : Action}
      (ih : ∃ L P timeline floor, Inv False s L P timeline floor) (hstep : Step S limits s a s') :
      ∃ L P timeline floor, Inv False s' L P timeline floor := by
    obtain ⟨L, P, timeline, floor, hinv⟩ := ih
    obtain ⟨L', P', timeline', floor', hinv', -⟩ := hinv.step hstep fun h => h.elim
    exact ⟨L', P', timeline', floor', hinv'⟩
  induction hs with
  | initial limits => exact ⟨_, _, _, _, Inv.initial False⟩
  | step hs hcond hreopen hstep ih => exact hkeeps ih hstep
  | reopen hs hcond hstep hh ih => exact hkeeps ih hstep

/-- **The directory that is left** when one more transaction is committed and the owner dies: it
opens, and all transactions are there. -/
theorem Filled.exists_open
    (hs : Session (Semantics.views listEngine) (fun _ _ => True) ⟨maxU64⟩ opened s)
    (hf : Filled k s h) {s' : System (Semantics.views listEngine)}
    (hstep : Step (Semantics.views listEngine) ⟨maxU64⟩ s (.commit [largest] .ok) s')
    (hacked : (k + 1, largest) ∈ s'.acked) {n : ℕ} {s'' : System (Semantics.views listEngine)}
    (hcrash : Step (Semantics.views listEngine) ⟨maxU64⟩ s' (.crash n) s'') :
    ∃ o, openWithOptions listEngine s''.dir = .ok o ∧ o.view = List.replicate (k + 1) largest ∧
      o.lsn = k + 1 ∧ o.root.lsn = 0 ∧
      ∃ a length, o.dir = s''.dir.modify a (Segment.setLen length) := by
  obtain ⟨L, P, timeline, floor, hinv⟩ := hs.inv
  have htimeline : timeline = List.replicate k largest := by
    have hrun := (hinv.handle h hf.handle).state hf.ready
    rw [hf.state] at hrun
    exact Option.some.inj ((listEngine_run [] 0 timeline).symm.trans hrun)
  obtain ⟨L₁, P₁, timeline₁, floor₁, hinv₁, written, -, hall, htimeline₁⟩ :=
    hinv.step hstep fun h => h.elim
  obtain rfl := hall rfl
  rw [htimeline, ← List.replicate_succ'] at htimeline₁
  obtain ⟨L₂, P₂, timeline₂, floor₂, hinv₂, hprefix⟩ := hinv₁.step hcrash fun h => h.elim
  have hacked₂ : s''.acked = s'.acked := by
    cases hcrash
    rfl
  -- the last transaction is acknowledged, so that the crash has taken nothing away
  have htimeline₂ : timeline₂ = List.replicate (k + 1) largest := by
    obtain ⟨i, hi, heq⟩ := mem_numbered.mp (hinv₂.acked (hacked₂ ▸ hacked))
    have hk : k + 1 = 0 + i + 1 := congrArg Prod.fst heq
    refine (List.IsPrefix.eq_of_length_le hprefix ?_).trans htimeline₁
    rw [htimeline₁, List.length_replicate]
    omega
  obtain ⟨o, a, state, hopen, -, -, -, -, -, hlsn, hrun, hview, hreplayed, hdir, -⟩ :=
    hinv₂.exists_open
  have hall : o.view = List.replicate (k + 1) largest := by
    have hstate := (listEngine_run [] 0 timeline₂).symm.trans hrun
    rw [show o.view = state from hview, ← Option.some.inj hstate, htimeline₂]
    rfl
  have hroot := listEngine_replayed hopen
  rw [hreplayed, map_snd_numbered, hall, htimeline₂] at hroot
  have hlength := congrArg List.length hroot
  rw [List.length_drop, List.length_replicate] at hlength
  refine ⟨o, hopen, hall, ?_, by omega, _, _, hdir⟩
  rw [hlsn, htimeline₂, List.length_replicate]

/-- **The counter is not exact** after a transaction that takes it behind `maxU64`: its write
fails when everything is synced, and the database is opened again. -/
theorem Filled.exists_not_exact
    (hs : Session (Semantics.views listEngine) (fun _ _ => True) ⟨maxU64⟩ opened s)
    (hf : Filled k s h) (hk : k + 1 ≤ maxU64) (hmax : maxU64 < (k + 1) * (40 + maxFrame)) :
    ∃ opened s, ∃ h,
      Session (Semantics.views listEngine) (fun _ _ => True) ⟨maxU64⟩ opened s ∧
      s.handle = some h ∧ (∀ segment ∈ s.dir.segments, segment.bytes.length ≤ segmentBytes) ∧
      h.walBytes ≠ s.dir.uncheckpointed h.root.lsn h.lsn := by
  have hcommit := hf.commit hk .ok
  have hfailed := hf.commit hk (.error (frameBytes (txFrames h.lsn [largest])).length true)
  have happend : Segment.append
      (.error (frameBytes (txFrames h.lsn [largest])).length true)
      (frameBytes (txFrames h.lsn [largest])) =
      Segment.append .ok (frameBytes (txFrames h.lsn [largest])) := by
    funext segment
    simp [Segment.append, WriteOutcome.written, WriteOutcome.synced]
  rw [happend] at hfailed
  have hdied := Step.crash_syncedBytes ⟨maxU64⟩
    { s with
      dir := s.dir.modify h.active (Segment.append .ok (frameBytes (txFrames h.lsn [largest])))
      writing := h.active
      handle := some { h with poisoned := true }
      acked := s.acked
      submitted := s.submitted ++ numbered h.lsn [largest] }
  obtain ⟨o, hopen, hview, hlsn, hroot, a, length, hdir⟩ := hf.exists_open hs hcommit
    (List.mem_append_right _ (by rw [hf.lsn]; exact List.mem_singleton_self _))
    (Step.crash_syncedBytes ⟨maxU64⟩ _)
  have h₁ := hs.step (a := .commit [largest] _) trivial Action.noConfusion hfailed
  have h₂ := h₁.step (a := .crash _) trivial Action.noConfusion hdied
  have h₃ := h₂.reopens trivial rfl hopen (Semantics.denotes_views _)
  obtain ⟨L, P, timeline, floor, hinv⟩ := h₃.inv
  have hhandle := hinv.handle _ rfl
  have htimeline : timeline = List.replicate (k + 1) largest :=
    (Option.some.inj ((listEngine_run [] 0 timeline).symm.trans (hhandle.state rfl))).trans hview
  refine ⟨_, _, _, h₃, rfl, ?_, ?_⟩
  · dsimp only
    rw [hdir]
    refine Directory.modify_short Segment.length_setLen_le ?_
    refine Directory.modify_short (fun segment => List.length_take_le' _ _) ?_
    exact fun segment hsegment => (hf.segments_append .ok segment hsegment).2
  · have hall := hinv.stored.uncheckpointed_eq (m := o.lsn) hhandle.root_mem hhandle.floor_le
    have hbytes : bytesBetween timeline o.root.lsn o.lsn = (k + 1) * (40 + maxFrame) := by
      have htake : (List.replicate (k + 1) largest).take (k + 1) =
          List.replicate (k + 1) largest := List.take_of_length_le List.length_replicate.le
      rw [bytesBetween, hroot, hlsn, htimeline, htake, List.drop_zero, largest,
        length_txFrames_replicate]
    have hlt := ((openWithOptions_counts hopen).le.trans (min_le_right _ _)).trans_lt hmax
    exact (hlt.trans_eq (hbytes.symm.trans hall.symm)).ne

/-- **Not in every session is the counter exact**: behind the largest counter it is not, and
segments with one transaction get there. -/
theorem exists_not_walBytes_exact : ∃ opened s, ∃ h,
    Session (Semantics.views listEngine) (fun _ _ => True) ⟨maxU64⟩ opened s ∧
    s.handle = some h ∧ (∀ segment ∈ s.dir.segments, segment.bytes.length ≤ segmentBytes) ∧
    h.walBytes ≠ s.dir.uncheckpointed h.root.lsn h.lsn := by
  obtain ⟨opened, s, h, hs, hf⟩ := exists_filled (Nat.div_mul_le_self maxU64 (40 + maxFrame))
  refine hf.exists_not_exact hs (by decide) ?_
  exact Nat.lt_mul_of_div_lt (Nat.lt_succ_self _) (by decide)

end Saturated

end Run

end EveDB
