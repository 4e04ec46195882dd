import EveDB.Recovery.Stored

/-!
# The writes keep the invariant

The three steps that write to the log: a group commit, the installation of a built
root, and the capture that rotates to a new segment. The first two append frames to
the active segment, of which a prefix becomes whole and the rest is torn
(`Inv.extend`); the last one adds a segment that is empty or repeats the root.

The hypothesis under `strict` is what a capture must meet for the durability clauses
of the invariant to survive it.
-/

namespace EveDB

variable {E : Engine} {S : Semantics E}

/-! ### Small facts -/

section Basic

variable {L P : Log} {timeline : List Bytes} {a : LogSegment}

/-- The transactions of a log end with those of its last segment that has frames. -/
theorem Log.Sound.length_eq (h : L.Sound timeline) (ha : L.headed.getLast? = some a) :
    (L.below a.number).transactions.length + (LogSegment.txsOf a.frames).length =
      timeline.length := by
  obtain ⟨haL, -, -⟩ := Log.number_le_of_getLast? h.ascending ha
  obtain ⟨front, back, hL, hfront, hback⟩ := Log.exists_split h.ascending haL
  have hnil : Log.transactions back = [] := Log.transactions_eq_nil fun t ht =>
    Log.frames_eq_nil_of_headed h.ascending ha (by rw [hL]; simp [ht]) (hback t ht)
  have htx := congrArg List.length h.transactions
  rw [length_txFrames] at htx
  rw [← htx, hL, Log.below_split hfront hback, Log.transactions_append, List.length_append]
  simp only [Log.transactions, List.flatMap_cons] at hnil ⊢
  rw [hnil, List.append_nil]
  rfl

/-- What a segment holds is below every later number. -/
theorem Log.Sound.length_below_le (h : L.Sound timeline) {d : LogSegment} (hd : d ∈ L) {n : ℕ}
    (hlt : d.number < n) :
    (L.below d.number).transactions.length + (LogSegment.txsOf d.frames).length ≤
      (L.below n).transactions.length := by
  obtain ⟨front, back, hL, hfront, hback⟩ := Log.exists_split h.ascending hd
  have hbelow : L.below n = front ++ d :: Log.below back n := by
    have hall : front.filter (fun t => decide (t.number < n)) = front :=
      List.filter_eq_self.mpr fun t ht => by simpa using (hfront t ht).trans hlt
    rw [hL, Log.below, List.filter_append, hall]
    simp [Log.below, hlt]
  rw [hbelow, hL, Log.below_split hfront hback, Log.transactions_append, List.length_append]
  simp [Log.transactions, LogSegment.transactions]

/-- The synced frames of a segment with a synced frame are some. -/
theorem Log.Sound.frames_ne_nil (h : L.Sound timeline) {d : LogSegment} (hd : d ∈ L)
    (hpos : 0 < d.synced) : d.frames ≠ [] := by
  have := h.synced_le d hd
  exact List.ne_nil_of_length_pos (by omega)

/-- A segment that publishes a root is not older than the root. -/
theorem Log.Sound.generation_le_number (h : L.Sound timeline) {t : LogSegment} (ht : t ∈ L)
    {f : Frame} (hf : f ∈ t.frames) {r : Root} (hr : LogSegment.frameRoot f = some r) :
    r.generation ≤ t.number :=
  ((h.frames t ht f hf).frameRoot hr).2.2

/-- The roots of a log with frames appended to a segment. -/
theorem Log.mem_roots_append {n : ℕ} {gs : List Frame} {torn : Bytes} {sync : Bool} {r : Root} :
    r ∈ (L.modify n (LogSegment.append gs torn sync)).roots ↔
      r ∈ L.roots ∨ (∃ t ∈ L, t.number = n) ∧ r ∈ gs.filterMap LogSegment.frameRoot := by
  simp only [Log.roots, LogSegment.roots, List.mem_flatMap]
  constructor
  · rintro ⟨t, ht, hr⟩
    rcases Log.mem_modify.mp ht with ⟨u, hu, hn, rfl⟩ | ⟨ht, -⟩
    · rw [LogSegment.append, List.filterMap_append, List.mem_append] at hr
      exact hr.imp (fun hr => ⟨u, hu, hr⟩) fun hr => ⟨⟨u, hu, hn⟩, hr⟩
    · exact Or.inl ⟨t, ht, hr⟩
  · rintro (⟨t, ht, hr⟩ | ⟨⟨t, ht, hn⟩, hr⟩)
    · by_cases hn : t.number = n
      · refine ⟨_, Log.mem_modify.mpr (Or.inl ⟨t, ht, hn, rfl⟩), ?_⟩
        rw [LogSegment.append, List.filterMap_append]
        exact List.mem_append_left _ hr
      · exact ⟨t, Log.mem_modify.mpr (Or.inr ⟨ht, hn⟩), hr⟩
    · refine ⟨_, Log.mem_modify.mpr (Or.inl ⟨t, ht, hn, rfl⟩), ?_⟩
      rw [LogSegment.append, List.filterMap_append]
      exact List.mem_append_right _ hr

/-- The bound on the numbers of a log does not depend on what the segments hold. -/
theorem Log.number_lt_modify {n m : ℕ} {f : LogSegment → LogSegment}
    (hf : ∀ t, (f t).number = t.number) (h : ∀ t ∈ L, t.number < m) :
    ∀ t ∈ L.modify n f, t.number < m := by
  intro t ht
  obtain ⟨u, hu, hn⟩ := Log.number_mem_modify hf ht
  exact hn ▸ h u hu

/-- An append does not move a synced point. -/
theorem Log.SyncedTo.append (hL : L.Sound timeline) (ha : L.headed.getLast? = some a) {w n : ℕ}
    (h : L.SyncedTo w n) (gs : List Frame) (torn : Bytes) (sync : Bool) :
    (L.modify a.number (LogSegment.append gs torn sync)).SyncedTo a.number n := by
  obtain ⟨-, -, hle⟩ := Log.number_le_of_getLast? hL.ascending ha
  refine h.modify (fun _ => rfl) (fun d hd hpos _ => hle d hd (hL.frames_ne_nil hd hpos))
    fun t ht _ hpos => ⟨?_, LogSegment.take_synced_append (hL.synced_le t ht) gs torn sync⟩
  have := List.length_pos_iff.mpr (hL.frames_ne_nil ht hpos)
  simp only [LogSegment.append, List.length_append]
  split <;> omega

/-- When the last segment with frames is synced, all transactions are. -/
theorem Log.Sound.syncedTo (h : L.Sound timeline) (ha : L.headed.getLast? = some a)
    (hs : a.synced = a.frames.length) : L.SyncedTo a.number timeline.length := by
  obtain ⟨haL, hne, -⟩ := Log.number_le_of_getLast? h.ascending ha
  refine ⟨a, haL, hs ▸ List.length_pos_iff.mpr hne, le_rfl, ?_⟩
  rw [hs, List.take_length, h.length_eq ha]

/-- The segments in front stay synced when a segment behind them changes. -/
theorem Log.SealedSynced.modify {n : ℕ} {f : LogSegment → LogSegment} (h : L.SealedSynced)
    (hback : ∀ t ∈ L, n < t.number → t.frames = []) (hnum : ∀ t, (f t).number = t.number)
    (hne : ∀ t ∈ L, t.number = n → (f t).frames ≠ [] → t.frames ≠ []) :
    (L.modify n f).SealedSynced := by
  intro t ht u hu hlt htf huf
  rcases Log.mem_modify.mp hu with ⟨v, hv, hvn, rfl⟩ | ⟨hu, hun⟩
  · rcases Log.mem_modify.mp ht with ⟨w, -, hwn, rfl⟩ | ⟨ht, -⟩
    · rw [hnum, hnum] at hlt
      omega
    · exact h t ht v hv (hnum v ▸ hlt) htf (hne v hv hvn huf)
  · rcases Log.mem_modify.mp ht with ⟨w, -, hwn, rfl⟩ | ⟨ht, -⟩
    · rw [hnum, hwn] at hlt
      exact absurd (hback u hu hlt) huf
    · exact h t ht u hu hlt htf huf

end Basic

namespace Stored

variable {dir dir' : Directory} {writing : ℕ} {L P : Log} {timeline : List Bytes} {floor : ℕ}
  {a : LogSegment}

/-- Nothing of the log depends on the other files, but the roots need theirs. -/
theorem of_segments (h : Stored S dir writing L P timeline floor)
    (hcontrol : dir'.control = dir.control) (hsegments : dir'.segments = dir.segments)
    (htables : (dir'.tables.map FileInfo.id).Nodup)
    (hfiles : ∀ r ∈ L.roots, floor ≤ r.generation → ∀ f ∈ r.files, f ∈ dir'.tables) :
    Stored S dir' writing L P timeline floor where
  sound := h.sound
  control := hcontrol.trans h.control
  segments := hsegments.trans h.segments
  sublist := h.sublist
  keep := h.keep
  writing := h.writing
  length_le := h.length_le
  runs := h.runs
  denotes := h.denotes
  tables := htables
  files := hfiles
  anchor := h.anchor

/-- The floor rises to a synced root. -/
theorem raise (h : Stored S dir writing L P timeline floor) {floor' : ℕ} (hle : floor ≤ floor')
    (hanchor : ∃ root, P.Published root ∧ floor' ≤ root.generation) :
    Stored S dir writing L P timeline floor' where
  sound := h.sound
  control := h.control
  segments := h.segments
  sublist := h.sublist
  keep := fun t ht hf => h.keep t ht (hle.trans hf)
  writing := h.writing
  length_le := h.length_le
  runs := h.runs
  denotes := h.denotes
  tables := h.tables
  files := fun r hr hf => h.files r hr (hle.trans hf)
  anchor := hanchor

/-- A root from the floor on is still published when a segment below it goes. -/
theorem published_remove (h : Stored S dir writing L P timeline floor) {n : ℕ} (hn : n < floor)
    {root : Root} (hroot : P.Published root) (hle : floor ≤ root.generation) :
    Log.Published (P.filter fun t => t.number ≠ n) root := by
  obtain ⟨t, ht, f, hf, hr⟩ := hroot
  have := h.sound.generation_le_number (h.sublist.subset ht) (List.mem_of_mem_take hf) hr
  exact ⟨t, List.mem_filter.mpr ⟨ht, by simp; omega⟩, f, hf, hr⟩

/-- Segments below the floor can go. -/
theorem remove (h : Stored S dir writing L P timeline floor) {n : ℕ} (hn : n < floor) :
    Stored S { dir with segments := dir.segments.filter fun segment => segment.number ≠ n }
      writing L (P.filter fun t => t.number ≠ n) timeline floor where
  sound := h.sound
  control := h.control
  segments := by
    simp only [h.segments, Log.segments, List.filter_map]
    rfl
  sublist := List.filter_sublist.trans h.sublist
  keep := fun t ht hf => List.mem_filter.mpr ⟨h.keep t ht hf, by simp; omega⟩
  writing := h.writing
  length_le := h.length_le
  runs := h.runs
  denotes := h.denotes
  tables := h.tables
  files := h.files
  anchor := by
    obtain ⟨root, hroot, hle⟩ := h.anchor
    exact ⟨root, h.published_remove hn hroot hle, hle⟩

/-- The floor is not above the segment written last, nor above the last one with frames. -/
theorem floor_le (h : Stored S dir writing L P timeline floor) :
    floor ≤ writing ∧ ∀ a, L.headed.getLast? = some a → floor ≤ a.number := by
  obtain ⟨r, ⟨t, ht, f, hf, hr⟩, hle⟩ := h.anchor
  have htL := h.sublist.subset ht
  have hmem := List.mem_of_mem_take hf
  have hgen := h.sound.generation_le_number htL hmem hr
  constructor
  · by_contra hlt
    have := h.writing t htL (by omega)
    rw [this] at hmem
    cases hmem
  · intro a ha
    have := (Log.number_le_of_getLast? h.sound.ascending ha).2.2 t htL (List.ne_nil_of_mem hmem)
    omega

end Stored

/-! ### Writes to the active segment -/

/-- What a write of `data` to the active segment makes of a log and its timeline. -/
structure Extended (s : System S) (h : Handle S) (L P : Log) (floor : ℕ) (o : WriteOutcome)
    (data : Bytes) (L' P' : Log) (timeline' : List Bytes) : Prop where
  stored : Stored S (s.dir.modify h.active (Segment.append o data)) h.active L' P' timeline' floor
  acked_synced : ∃ n, L'.SyncedTo h.active n ∧ ∀ x ∈ s.acked, x.1 ≤ n
  active : ∃ a, L'.headed.getLast? = some a ∧ a.number = h.active
  below : ∀ g ≤ h.active, L'.below g = L.below g
  number_lt : ∀ n, (∀ t ∈ L, t.number < n) → ∀ t ∈ L', t.number < n
  sealed_synced : L.SealedSynced → L'.SealedSynced
  published : ∀ root, P.Published root → P'.Published root
  whole : o.failed = false → ∀ t ∈ L', t.frames ≠ [] → t.torn = []
  synced : o.failed = false → L'.SyncedTo h.active timeline'.length

/-- **A write to the active segment** makes a prefix of its frames whole, all of them
when it succeeds. -/
theorem Inv.extend {strict : Prop} {s : System S} {L P : Log} {timeline ps : List Bytes}
    {floor : ℕ} {h : Handle S} (hinv : Inv strict s L P timeline floor)
    (hh : s.handle = some h) (ready : h.poisoned = false) (o : WriteOutcome) {gs : List Frame}
    (hgs : ∀ f ∈ gs, LogSegment.FrameOk h.active f)
    (htx : LogSegment.txsOf gs = txFrames timeline.length ps)
    (hlen : timeline.length + ps.length ≤ maxU64)
    (hrun : ∃ st, S.run S.initial 0 (timeline ++ ps) = some st)
    (hroots : ∀ r ∈ gs.filterMap LogSegment.frameRoot,
      (L.below r.generation).transactions.length = r.lsn ∧
      (∀ r' ∈ L.roots, r'.generation ≠ r.generation) ∧
      (∀ r' ∈ gs.filterMap LogSegment.frameRoot, r' = r) ∧
      (∀ f ∈ r.files, f ∈ s.dir.tables) ∧ r.lsn ≤ timeline.length ∧
      ∃ st, S.run S.initial 0 (timeline.take r.lsn) = some st ∧ S.Denotes (E.load r) st) :
    ∃ gs' ps' L' P', gs' <+: gs ∧ ps' <+: ps ∧ (o.failed = false → gs' = gs ∧ ps' = ps) ∧
      Extended s h L P floor o (frameBytes gs) L' P' (timeline ++ ps') ∧
      (∀ r, r ∈ L'.roots ↔ r ∈ L.roots ∨ r ∈ gs'.filterMap LogSegment.frameRoot) ∧
      (o.failed = false → ∀ r ∈ gs.filterMap LogSegment.frameRoot, P'.Published r) := by
  have hstored := hinv.stored
  have hsound := hstored.sound
  have hh' := hinv.handle h hh
  obtain ⟨a, ha, hactive⟩ := hh'.active ready
  obtain ⟨haL, hne, -⟩ := Log.number_le_of_getLast? hsound.ascending ha
  have haP := hstored.keep a haL (hstored.floor_le.2 a ha)
  have hnil : ∀ t ∈ L, a.number < t.number → t.frames = [] := fun t ht hlt =>
    Log.frames_eq_nil_of_headed hsound.ascending ha ht hlt
  have honly : ∀ t ∈ L, t.number = a.number → t = a := fun t ht hn =>
    Log.eq_of_number hsound.ascending ht haL hn
  obtain ⟨k, torn, htorn, hbytes, hok⟩ := LogSegment.exists_append o
    (fun f hf => (hgs f hf).valid) (hh'.whole ready a haL hne) (hsound.synced_le a haL)
  obtain ⟨qs, rs, rfl, hqs, -⟩ : ∃ qs rs, ps = qs ++ rs ∧
      LogSegment.txsOf (gs.take k) = txFrames timeline.length qs ∧
      LogSegment.txsOf (gs.drop k) = txFrames (timeline.length + qs.length) rs := by
    refine txFrames_eq_append (htx.symm.trans ?_)
    rw [← LogSegment.txsOf_append, List.take_append_drop]
  have hsub : ∀ r ∈ (gs.take k).filterMap LogSegment.frameRoot,
      r ∈ gs.filterMap LogSegment.frameRoot :=
    fun r hr => ((List.take_sublist k gs).filterMap _).subset hr
  set F := LogSegment.append (gs.take k) torn (o.synced (frameBytes gs))
  have hnew : Stored S (s.dir.modify a.number (Segment.append o (frameBytes gs))) a.number
      (L.modify a.number F) (P.modify a.number F) (timeline ++ qs) floor := by
    refine hstored.append ha hbytes (fun f hf => hactive ▸ hgs f (List.mem_of_mem_take hf)) htorn
      hqs ?_ ?_ fun r hr => ?_
    · rw [List.length_append] at hlen
      omega
    · obtain ⟨st, hst⟩ := hrun
      rw [← List.append_assoc] at hst
      exact Semantics.exists_run_of_append hst
    · obtain ⟨h₁, h₂, h₃, h₄⟩ := hroots r (hsub r hr)
      exact ⟨h₁, h₂, fun r' hr' => h₃ r' (hsub r' hr'), h₄⟩
  have hlast : (L.modify a.number F).headed.getLast? = some (F a) :=
    Log.headed_modify hsound.ascending ha (by simp [F, LogSegment.append, hne])
  have hsynced : o.failed = false → o.synced (frameBytes gs) = true := by
    cases o <;> simp [WriteOutcome.failed, WriteOutcome.synced]
  refine ⟨gs.take k, qs, L.modify a.number F, P.modify a.number F, List.take_prefix k gs,
    List.prefix_append qs rs, fun ho => ?_,
    { stored := hactive ▸ hnew
      acked_synced := ?_
      active := ⟨_, hlast, hactive⟩
      below := fun g hg => Log.below_modify (fun _ => rfl) (hactive ▸ hg)
      number_lt := fun n hn => Log.number_lt_modify (fun _ => rfl) hn
      sealed_synced := fun hs => hs.modify hnil (fun _ => rfl) fun t ht hn _ => honly t ht hn ▸ hne
      published := fun root hroot => hroot.modify fun t ht _ =>
        (LogSegment.take_synced_append (hsound.synced_le t (hstored.sublist.subset ht))
          _ _ _).subset
      whole := fun ho t ht htf => ?_
      synced := fun ho => hactive ▸ hnew.sound.syncedTo (a := F a) hlast ?_ },
    fun r => ?_, fun ho r hr => ?_⟩
  · refine ⟨(hok ho).1, ?_⟩
    have := congrArg List.length (hqs.symm.trans ((hok ho).1 ▸ htx))
    rw [length_txFrames, length_txFrames, List.length_append] at this
    rw [List.eq_nil_of_length_eq_zero (by omega : rs.length = 0), List.append_nil]
  · obtain ⟨n, hn, hle⟩ := hinv.acked_synced
    exact ⟨n, hactive ▸ hn.append hsound ha _ _ _, hle⟩
  · rcases Log.mem_modify.mp ht with ⟨u, -, -, rfl⟩ | ⟨ht, -⟩
    · exact (hok ho).2
    · exact hh'.whole ready t ht htf
  · simp [F, LogSegment.append, hsynced ho]
  · rw [Log.mem_roots_append]
    simp only [show ∃ t ∈ L, t.number = a.number from ⟨a, haL, rfl⟩, true_and]
  · obtain ⟨f, hf, hfr⟩ := List.mem_filterMap.mp hr
    refine ⟨_, Log.mem_modify.mpr (Or.inl ⟨a, haP, rfl, rfl⟩), f, ?_, hfr⟩
    simp only [F, LogSegment.append, hsynced ho, (hok ho).1, if_true, List.take_length]
    exact List.mem_append_right _ hf

/-- A poisoned handle has little to keep. -/
theorem HandleInv.poison {s s' : System S} {h h' : Handle S} {L L' : Log}
    {timeline timeline' : List Bytes} {floor : ℕ} (hh : HandleInv s h L timeline floor)
    (hpoisoned : h'.poisoned = true) (hroot : h'.root = h.root)
    (hreplaced : h'.replaced = h.replaced) (hroots : ∀ r ∈ L.roots, r ∈ L'.roots)
    (hnext : h'.nextGeneration + 1 ≤ maxU64 → ∀ t ∈ L', t.number < h'.nextGeneration)
    (hcleanup : h'.cleanup = none ∨
      h'.cleanup = h.cleanup ∧ h'.job = h.job ∧ ∀ r ∈ L'.roots, r ∈ L.roots) :
    HandleInv s' h' L' timeline' floor := by
  have hready : h'.poisoned ≠ false := by simp [hpoisoned]
  refine
    { root_mem := hroot ▸ hroots _ hh.root_mem
      floor_le := hroot ▸ hh.floor_le
      next := hnext
      newest := fun ready => absurd ready hready
      lsn := fun ready => absurd ready hready
      state := fun ready => absurd ready hready
      active := fun ready => absurd ready hready
      whole := fun ready => absurd ready hready
      job := fun ready => absurd ready hready
      job_none := fun hne => ?_
      cleanup_le := fun previous hp => ?_
      cleanup_roots := fun previous hp r hr hle => ?_
      replaced := fun previous hp => ?replaced }
  case replaced =>
    obtain ⟨hmem, hle⟩ := hh.replaced previous (hreplaced ▸ hp)
    exact ⟨hroots previous hmem, hle⟩
  all_goals rcases hcleanup with hnone | ⟨hc, hj, hback⟩
  · exact absurd hnone hne
  · exact hj ▸ hh.job_none (hc ▸ hne)
  · rw [hnone] at hp
    cases hp
  · exact hh.cleanup_le previous (hc ▸ hp)
  · rw [hnone] at hp
    cases hp
  · exact hroot ▸ hh.cleanup_roots previous (hc ▸ hp) r (hback r hr) hle

/-- A job does not see what is committed behind its capture. -/
theorem JobInv.extend {s s' : System S} {h h' : Handle S} {L L' : Log} {timeline : List Bytes}
    {job : CheckpointJob S} (hjob : JobInv s h L timeline job)
    (hbelow : ∀ g ≤ h.active, L'.below g = L.below g) (hroots : ∀ r, r ∈ L'.roots ↔ r ∈ L.roots)
    (ps : List Bytes) (hactive : h'.active = h.active := by rfl)
    (htables : s'.dir.tables = s.dir.tables := by rfl) : JobInv s' h' L' (timeline ++ ps) job where
  generation := hactive.trans hjob.generation
  fresh := fun r hr => hjob.fresh r ((hroots r).mp hr)
  lsn := by rw [hbelow _ hjob.generation.ge, hjob.lsn]
  lsn_le := by
    rw [List.length_append]
    have := hjob.lsn_le
    omega
  state := by rw [List.take_append_of_le_length hjob.lsn_le, hjob.state]
  built := htables ▸ hjob.built

/-! ### Behind a new segment -/

section Sealed

variable {L P : Log} {timeline : List Bytes} {a new : LogSegment}

/-- Up to its own number a new segment changes nothing. -/
theorem Log.below_concat {g : ℕ} (hg : g ≤ new.number) :
    Log.below (L ++ [new]) g = L.below g := by
  have hnot : ¬ new.number < g := not_lt.mpr hg
  simp [Log.below, hnot]

/-- A new segment publishes no new root. -/
theorem Log.mem_roots_concat {root : Root} (hroot : root ∈ L.roots)
    (hframes : new.frames = [] ∨ new.frames = [rootFrame root])
    (hframe : LogSegment.frameRoot (rootFrame root) = some root) (r : Root) :
    r ∈ Log.roots (L ++ [new]) ↔ r ∈ L.roots := by
  rw [Log.roots_append, List.mem_append, or_iff_left_iff_imp]
  intro hr
  have hnew : Log.roots [new] = new.frames.filterMap LogSegment.frameRoot := by
    simp [Log.roots, LogSegment.roots]
  rcases hframes with hnil | hone
  · simp [hnew, hnil] at hr
  · obtain rfl : r = root := by simpa [hnew, hone, hframe] using hr
    exact hroot

/-- What is durable stays so in front of a new segment. -/
theorem Log.SyncedTo.concat {w n : ℕ} (h : L.SyncedTo w n)
    (hnum : ∀ t ∈ L, t.number < new.number) : Log.SyncedTo (L ++ [new]) new.number n := by
  obtain ⟨d, hd, hpos, -, hn⟩ := h
  have hle := (hnum d hd).le
  exact ⟨d, List.mem_append_left _ hd, hpos, hle, by rwa [Log.below_concat hle]⟩

/-- **A new segment seals the last one**, which has to be synced. -/
theorem Log.SealedSynced.concat (h : L.SealedSynced) (hsound : L.Sound timeline)
    (ha : L.headed.getLast? = some a) (hsealed : a.synced = a.frames.length)
    (hnum : ∀ t ∈ L, t.number < new.number) : Log.SealedSynced (L ++ [new]) := by
  intro t ht u hu hlt htf huf
  rcases List.mem_append.mp ht with ht | ht
  · obtain ⟨haL, hane, hale⟩ := Log.number_le_of_getLast? hsound.ascending ha
    rcases (hale t ht htf).lt_or_eq with hta | hta
    · exact h t ht a haL hta htf hane
    · rw [Log.eq_of_number hsound.ascending ht haL hta]
      exact hsealed
  · -- nothing is behind the new segment
    rw [List.mem_singleton.mp ht] at hlt
    rcases List.mem_append.mp hu with hu | hu
    · exact absurd (hlt.trans (hnum u hu)) (lt_irrefl _)
    · rw [List.mem_singleton.mp hu] at hlt
      exact absurd hlt (lt_irrefl _)

/-- **The owner behind a capture** has a job for everything up to its last transaction. -/
theorem HandleInv.capture {s s' : System S} {h : Handle S} {floor : ℕ}
    (hh : HandleInv s h L timeline floor) (hsound : L.Sound timeline)
    (ready : h.poisoned = false) (hcleanup : h.cleanup = none)
    (hnumber : new.number = h.nextGeneration) (hnum : ∀ t ∈ L, t.number < h.nextGeneration)
    (hone : new.frames = [rootFrame h.root]) (htorn : new.torn = [])
    (hroots : ∀ r, r ∈ Log.roots (L ++ [new]) ↔ r ∈ L.roots) :
    HandleInv s'
      { h with
        active := h.nextGeneration
        nextGeneration := h.nextGeneration + 1
        tail := true
        job := some { generation := h.nextGeneration, lsn := h.lsn, state := h.state,
                      walFrontierBytes := h.walBytes, built := none } }
      (L ++ [new]) timeline floor where
  root_mem := (hroots _).mpr hh.root_mem
  floor_le := hh.floor_le
  next _ t ht := by
    rcases List.mem_append.mp ht with ht | ht
    · exact (hnum t ht).trans (Nat.lt_succ_self _)
    · rw [List.mem_singleton.mp ht, hnumber]
      exact Nat.lt_succ_self _
  newest _ r hr := hh.newest ready r ((hroots r).mp hr)
  lsn _ := hh.lsn ready
  state _ := hh.state ready
  active _ := ⟨new, by simp [Log.headed, hone], hnumber⟩
  whole _ t ht htf := by
    rcases List.mem_append.mp ht with ht | ht
    · exact hh.whole ready t ht htf
    · rw [List.mem_singleton.mp ht]
      exact htorn
  job := by
    rintro - job ⟨⟩
    -- the whole log is below the new segment
    have hall : Log.below (L ++ [new]) h.nextGeneration = L := by
      rw [Log.below_concat hnumber.ge]
      exact List.filter_eq_self.mpr fun t ht => by simpa using hnum t ht
    constructor
    · rfl
    · intro r hr
      obtain ⟨t, ht, g, hg, hgr⟩ := Log.mem_roots.mp ((hroots r).mp hr)
      exact (hsound.generation_le_number ht hg hgr).trans_lt (hnum t ht)
    · rw [hall, hsound.transactions, length_txFrames, hh.lsn ready]
    · exact (hh.lsn ready).le
    · rw [List.take_of_length_le (hh.lsn ready).ge]
      exact hh.state ready
    · intro root hroot
      cases hroot
  job_none hne := absurd hcleanup hne
  cleanup_le := hh.cleanup_le
  cleanup_roots previous hp r hr := hh.cleanup_roots previous hp r ((hroots r).mp hr)
  replaced previous hp := (hh.replaced previous hp).imp_left (hroots previous).mpr

end Sealed

namespace Inv

variable {strict : Prop} {s : System S} {L P : Log} {timeline : List Bytes} {floor : ℕ}
  {h : Handle S}

/-- **A group commit.** -/
theorem commit (hinv : Inv strict s L P timeline floor) (hh : s.handle = some h)
    (ready : h.poisoned = false) {payloads : List Bytes} {state : S.State}
    (hstate : S.run h.state h.lsn payloads = some state)
    (hsize : ∀ p ∈ payloads, p.length ≤ maxFrame) (hlsn : h.lsn + payloads.length ≤ maxU64)
    (o : WriteOutcome) (walBytes : ℕ) :
    ∃ L P written, written <+: payloads ∧ (o.failed = false → written = payloads) ∧ Inv strict
      { s with
        dir := s.dir.modify h.active (Segment.append o (frameBytes (txFrames h.lsn payloads)))
        writing := h.active
        handle := some (if o.failed then { h with poisoned := true } else
          { h with lsn := h.lsn + payloads.length, walBytes, state })
        acked := if o.failed then s.acked else s.acked ++ numbered h.lsn payloads
        submitted := s.submitted ++ numbered h.lsn payloads } L P (timeline ++ written) floor := by
  have hh' := hinv.handle h hh
  have hlen := hh'.lsn ready
  have hgs : ∀ f ∈ txFrames h.lsn payloads, LogSegment.FrameOk h.active f := by
    intro f hf
    obtain ⟨hk, -, hle, hp⟩ := mem_txFrames hf
    have : maxU64 < 2 ^ 64 := by decide
    exact ⟨⟨by rw [hk]; decide, by omega, hsize _ hp⟩, Or.inr hk, fun hk' => absurd hk' (by omega)⟩
  have hrun : S.run S.initial 0 (timeline ++ payloads) = some state := by
    rw [Semantics.run_append, hh'.state ready, Option.bind_some, Nat.zero_add, ← hlen, hstate]
  obtain ⟨gs', ps', L', P', hgs', ⟨rest, hrest⟩, hok, hext, hroots, -⟩ := hinv.extend hh ready o
    hgs (by rw [LogSegment.txsOf_txFrames, hlen]) (hlen ▸ hlsn) ⟨state, hrun⟩ (by simp)
  have hroots' : ∀ r, r ∈ L'.roots ↔ r ∈ L.roots := by
    intro r
    have : r ∉ gs'.filterMap LogSegment.frameRoot := fun hr => by
      simpa using (hgs'.sublist.filterMap LogSegment.frameRoot).subset hr
    rw [hroots r, or_iff_left this]
  have hnext : h.nextGeneration + 1 ≤ maxU64 → ∀ t ∈ L', t.number < h.nextGeneration :=
    fun hle => hext.number_lt _ (hh'.next hle)
  have hsubmitted : numbered 0 (timeline ++ ps') ⊆ s.submitted ++ numbered h.lsn payloads := by
    rw [numbered_append, Nat.zero_add, ← hlen, ← hrest, numbered_append]
    intro x hx
    rcases List.mem_append.mp hx with hx | hx
    · exact List.mem_append_left _ (hinv.submitted hx)
    · exact List.mem_append_right _ (List.mem_append_left _ hx)
  have hold : numbered 0 timeline ⊆ numbered 0 (timeline ++ ps') := by
    rw [numbered_append]
    exact List.subset_append_left _ _
  refine ⟨L', P', ps', ⟨rest, hrest⟩, fun ho => (hok ho).2, ?_⟩
  cases ho : o.failed with
  | true =>
    exact
      { stored := hext.stored
        acked := fun x hx => hold (hinv.acked (by simpa using hx))
        acked_synced := hext.acked_synced
        submitted := hsubmitted
        handle := by
          rintro h' ⟨⟩
          exact hh'.poison rfl rfl rfl (fun r hr => (hroots' r).mpr hr) hnext
            (Or.inr ⟨rfl, rfl, fun r hr => (hroots' r).mp hr⟩)
        sealed_synced := fun hs => hext.sealed_synced (hinv.sealed_synced hs)
        root_synced := by
          rintro hs h' ⟨⟩
          exact hext.published _ (hinv.root_synced hs h hh) }
  | false =>
    obtain ⟨-, rfl⟩ := hok ho
    have hacked : s.acked ++ numbered h.lsn ps' ⊆ numbered 0 (timeline ++ ps') := by
      rw [numbered_append, Nat.zero_add, ← hlen]
      intro x hx
      rcases List.mem_append.mp hx with hx | hx
      · exact List.mem_append_left _ (hinv.acked hx)
      · exact List.mem_append_right _ hx
    refine
      { stored := hext.stored
        acked := hacked
        acked_synced := ⟨_, hext.synced ho, fun x hx => ?_⟩
        submitted := hsubmitted
        handle := ?_
        sealed_synced := fun hs => hext.sealed_synced (hinv.sealed_synced hs)
        root_synced := ?_ }
    · obtain ⟨i, hi, rfl⟩ := mem_numbered.mp (hacked hx)
      simp only
      omega
    · rintro h' ⟨⟩
      exact
        { root_mem := (hroots' _).mpr hh'.root_mem
          floor_le := hh'.floor_le
          next := hnext
          newest := fun _ r hr => hh'.newest ready r ((hroots' r).mp hr)
          lsn := fun _ => by simp [hlen]
          state := fun _ => hrun
          active := fun _ => hext.active
          whole := fun _ => hext.whole ho
          job := fun _ job hjob => (hh'.job ready job hjob).extend hext.below hroots' ps'
          job_none := hh'.job_none
          cleanup_le := hh'.cleanup_le
          cleanup_roots := fun previous hp r hr =>
            hh'.cleanup_roots previous hp r ((hroots' r).mp hr)
          replaced := fun previous hp =>
            (hh'.replaced previous hp).imp_left (hroots' previous).mpr }
    · rintro hs h' ⟨⟩
      exact hext.published _ (hinv.root_synced hs h hh)

/-- **An installation.** On success the replaced root becomes the floor. -/
theorem install (hinv : Inv strict s L P timeline floor) (hh : s.handle = some h)
    (ready : h.poisoned = false) {job : CheckpointJob S} {root : Root} (hjob : h.job = some job)
    (hbuilt : job.built = some root) (o : WriteOutcome) (walBytes : ℕ) :
    ∃ L P floor, Inv strict
      { s with
        dir := s.dir.modify h.active (Segment.append o (rootFrame root).bytes)
        writing := h.active
        handle := some (if o.failed then { h with poisoned := true, job := none } else
          { h with
            root
            tail := false
            walBytes
            job := none
            cleanup := some h.root
            replaced := some h.root }) }
      L P timeline floor := by
  have hh' := hinv.handle h hh
  have hj := hh'.job ready job hjob
  obtain ⟨hgen, hlsn, hdecode, hsize, hfiles, hdenotes⟩ := hj.built root hbuilt
  have hlen := hinv.stored.length_le
  have hfr := LogSegment.frameRoot_rootFrame hdecode
  have hgs : ∀ f ∈ [rootFrame root], LogSegment.FrameOk h.active f := by
    intro f hf
    rw [List.mem_singleton.mp hf]
    have hmax : maxU64 < 2 ^ 64 := by decide
    have := hj.lsn_le
    have hlt : root.lsn < 2 ^ 64 := by omega
    have hkind : (rootFrame root).kind < 2 ^ 16 := show 1 < 2 ^ 16 by decide
    exact ⟨⟨hkind, hlt, hsize⟩, Or.inl rfl, fun _ =>
      ⟨root, rfl, hdecode, (hgen.trans hj.generation.symm).le⟩⟩
  have hmem : ∀ r, r ∈ [rootFrame root].filterMap LogSegment.frameRoot ↔ r = root := by
    simp [hfr]
  obtain ⟨gs', ps', L', P', hgs', hps', hok, hext, hroots, hpub⟩ := hinv.extend hh ready o
    hgs (show LogSegment.txsOf _ = txFrames timeline.length [] from rfl) (by simpa using hlen)
    (by simpa using hinv.stored.runs) fun r hr => by
      rw [hmem] at hr
      subst hr
      refine ⟨by rw [hgen, hj.lsn, hlsn], fun r' hr' => ?_, fun r' hr' => (hmem r').mp hr', hfiles,
        hlsn.le.trans hj.lsn_le, job.state, by rw [hlsn, hj.state], hdenotes⟩
      have := hj.fresh r' hr'
      omega
  obtain rfl : ps' = [] := List.prefix_nil.mp hps'
  rw [List.append_nil] at hext
  rw [show frameBytes [rootFrame root] = (rootFrame root).bytes from by simp] at hext
  have hcleanup : h.cleanup = none := by
    by_contra hne
    have := hh'.job_none hne
    rw [hjob] at this
    cases this
  have hnext : h.nextGeneration + 1 ≤ maxU64 → ∀ t ∈ L', t.number < h.nextGeneration :=
    fun hle => hext.number_lt _ (hh'.next hle)
  have hsub : ∀ r ∈ L.roots, r ∈ L'.roots := fun r hr => (hroots r).mpr (Or.inl hr)
  cases ho : o.failed with
  | true =>
    exact ⟨L', P', floor,
      { stored := hext.stored
        acked := hinv.acked
        acked_synced := hext.acked_synced
        submitted := hinv.submitted
        handle := by
          rintro h' ⟨⟩
          exact hh'.poison rfl rfl rfl hsub hnext (Or.inl hcleanup)
        sealed_synced := fun hs => hext.sealed_synced (hinv.sealed_synced hs)
        root_synced := by
          rintro hs h' ⟨⟩
          exact hext.published _ (hinv.root_synced hs h hh) }⟩
  | false =>
    obtain ⟨rfl, -⟩ := hok ho
    have hroots' : ∀ r, r ∈ L'.roots ↔ r ∈ L.roots ∨ r = root := fun r => by rw [hroots, hmem]
    have hle : h.root.generation ≤ root.generation := by
      have := hj.fresh h.root hh'.root_mem
      omega
    have hpub' : P'.Published root := hpub ho root ((hmem root).mpr rfl)
    refine ⟨L', P', h.root.generation,
      { stored := hext.stored.raise hh'.floor_le ⟨root, hpub', hle⟩
        acked := hinv.acked
        acked_synced := hext.acked_synced
        submitted := hinv.submitted
        handle := ?_
        sealed_synced := fun hs => hext.sealed_synced (hinv.sealed_synced hs)
        root_synced := by
          rintro hs h' ⟨⟩
          exact hpub' }⟩
    rintro h' ⟨⟩
    refine
      { root_mem := (hroots' root).mpr (Or.inr rfl)
        floor_le := hle
        next := hnext
        newest := fun _ r hr => ?_
        lsn := fun _ => hh'.lsn ready
        state := fun _ => hh'.state ready
        active := fun _ => hext.active
        whole := fun _ => hext.whole ho
        job := fun _ job hjob => by cases hjob
        job_none := fun _ => rfl
        cleanup_le := by
          rintro previous ⟨⟩
          exact le_rfl
        cleanup_roots := ?_
        replaced := by
          rintro previous ⟨⟩
          exact ⟨hsub _ hh'.root_mem, le_rfl⟩ }
    · rcases (hroots' r).mp hr with hr | rfl
      · exact (hh'.newest ready r hr).trans hle
      · exact le_rfl
    · rintro previous ⟨⟩ r hr hge
      refine ((hroots' r).mp hr).imp_left fun hr => ?_
      exact hinv.stored.sound.unique r hr h.root hh'.root_mem
        (le_antisymm (hh'.newest ready r hr) hge)

/-! ### A new segment -/

/-- **A capture.** The durability clauses need the sealed segment to be synced. -/
theorem capture (hinv : Inv strict s L P timeline floor) (hh : s.handle = some h)
    (ready : h.poisoned = false) (hcleanup : h.cleanup = none)
    (hgeneration : h.nextGeneration + 1 ≤ maxU64)
    (hsealed : strict → ∀ a, L.headed.getLast? = some a → a.synced = a.frames.length)
    (o : WriteOutcome) :
    ∃ L P, Inv strict
      { s with
        dir := { s.dir with catalogs := s.dir.catalogs ++ [h.nextGeneration] }.addSegment
          (Segment.append o (rootFrame h.root).bytes ⟨h.nextGeneration, [], 0⟩)
        writing := h.nextGeneration
        handle := some (if o.failed then
            { h with poisoned := true, nextGeneration := h.nextGeneration + 1 }
          else
            { h with
              active := h.nextGeneration
              nextGeneration := h.nextGeneration + 1
              tail := true
              job := some { generation := h.nextGeneration, lsn := h.lsn, state := h.state,
                            walFrontierBytes := h.walBytes, built := none } }) }
      L P timeline floor := by
  have hh' := hinv.handle h hh
  have hsound := hinv.stored.sound
  have hnum := hh'.next hgeneration
  obtain ⟨s₀, hs₀, f, hf, hfr⟩ := Log.mem_roots.mp hh'.root_mem
  have hfok := hsound.frames s₀ hs₀ f hf
  obtain ⟨rfl, hdecode, -⟩ := hfok.frameRoot hfr
  obtain ⟨k, torn, htorn, hbytes, hok⟩ := LogSegment.exists_append o
    (s := ⟨h.nextGeneration, [], [], 0⟩)
    (show ∀ f ∈ [rootFrame h.root], f.Valid by simpa using hfok.valid) rfl le_rfl
  set sync := o.synced (frameBytes [rootFrame h.root])
  set new := LogSegment.append ([rootFrame h.root].take k) torn sync ⟨h.nextGeneration, [], [], 0⟩
    with hnew
  have hframes : new.frames = [] ∨ new.frames = [rootFrame h.root] := by
    cases k <;> simp [hnew, LogSegment.append]
  have hsynced : new.synced ≤ new.frames.length := by
    simp only [hnew, LogSegment.append]
    split <;> simp
  have hstored := hinv.stored.add (n := h.nextGeneration) hh'.root_mem hnum (hh'.whole ready)
    hframes htorn hsynced (s.dir.catalogs ++ [h.nextGeneration])
  change Stored S (Directory.addSegment _ new.segment) _ (L ++ [new]) (P ++ [new]) _ _ at hstored
  have hsegment : (LogSegment.mk h.nextGeneration [] [] 0).segment = ⟨h.nextGeneration, [], 0⟩ := by
    simp [LogSegment.segment]
  rw [hbytes, hsegment, show frameBytes [rootFrame h.root] = (rootFrame h.root).bytes from by simp]
    at hstored
  have hroots := Log.mem_roots_concat hh'.root_mem hframes hfr
  refine ⟨L ++ [new], P ++ [new],
    { stored := hstored
      acked := hinv.acked
      acked_synced := ?_
      submitted := hinv.submitted
      handle := ?_
      sealed_synced := ?_
      root_synced := ?_ }⟩
  · obtain ⟨n, hn, hle⟩ := hinv.acked_synced
    exact ⟨n, hn.concat hnum, hle⟩
  · rintro h' ⟨⟩
    cases ho : o.failed with
    | true =>
      have hnext : h.nextGeneration + 1 + 1 ≤ maxU64 → ∀ t ∈ L ++ [new],
          t.number < h.nextGeneration + 1 := by
        intro _ t ht
        rcases List.mem_append.mp ht with ht | ht
        · exact (hnum t ht).trans (Nat.lt_succ_self _)
        · rw [List.mem_singleton.mp ht]
          exact Nat.lt_succ_self _
      exact hh'.poison rfl rfl rfl (fun r hr => (hroots r).mpr hr) hnext (Or.inl hcleanup)
    | false =>
      obtain ⟨hall, rfl⟩ := hok ho
      have hone : new.frames = [rootFrame h.root] := by simp [hnew, LogSegment.append, hall]
      exact hh'.capture hsound ready hcleanup rfl hnum hone rfl hroots
  · intro hs
    obtain ⟨a, ha, -⟩ := hh'.active ready
    exact (hinv.sealed_synced hs).concat hsound ha (hsealed hs a ha) hnum
  · rintro hs h' ⟨⟩
    have := (hinv.root_synced hs h hh).append_right [new]
    cases o.failed <;> exact this

end Inv

end EveDB
