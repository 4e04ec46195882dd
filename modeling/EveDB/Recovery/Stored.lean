import EveDB.Recovery.Invariant

/-!
# Changes of what is stored

The part of the invariant about the directory, under the four changes a step makes
to the log: frames appended to the active segment (`Stored.append`), a new segment
(`Stored.add`), a cut of the segment written last (`Stored.cut`), and the
truncation of the active segment on opening (`Stored.truncate`).
-/

namespace EveDB

variable {E : Engine} {S : Semantics E}

/-! ### Modifying one segment -/

section Modify

variable {L P : Log} {n m : ℕ} {f : LogSegment → LogSegment}

/-- What lies below a number does not change when a segment from there on does. -/
theorem Log.below_modify (hf : ∀ t, (f t).number = t.number) (h : m ≤ n) :
    (L.modify n f).below m = L.below m := by
  induction L with
  | nil => rfl
  | cons t L ih =>
    simp only [below, modify] at ih
    by_cases ht : t.number = n
    · have hnot : ¬ t.number < m := by omega
      simp [below, modify, ht, hf, ih, ht ▸ hnot]
    · simp [below, modify, List.filter_cons, ht, ih]

/-- What lies below a segment. -/
theorem Log.below_split {front back : Log} {s : LogSegment}
    (hfront : ∀ t ∈ front, t.number < s.number) (hback : ∀ t ∈ back, s.number < t.number) :
    Log.below (front ++ s :: back) s.number = front := by
  have h₁ : front.filter (fun t => decide (t.number < s.number)) = front :=
    List.filter_eq_self.mpr fun t ht => by simpa using hfront t ht
  have h₂ : back.filter (fun t => decide (t.number < s.number)) = [] :=
    List.filter_eq_nil_iff.mpr fun t ht => by simpa using (hback t ht).le
  rw [below, List.filter_append, List.filter_cons, h₁, h₂]
  simp

theorem Log.number_mem_modify (hf : ∀ t, (f t).number = t.number) {t : LogSegment}
    (ht : t ∈ L.modify n f) : ∃ u ∈ L, u.number = t.number := by
  rcases Log.mem_modify.mp ht with ⟨u, hu, -, rfl⟩ | ⟨ht, -⟩
  · exact ⟨u, hu, (hf u).symm⟩
  · exact ⟨t, ht, rfl⟩

/-- There is one segment of a number. -/
theorem Log.eq_of_number {s t : LogSegment} (h : L.Pairwise fun s t => s.number < t.number)
    (hs : s ∈ L) (ht : t ∈ L) (heq : s.number = t.number) : s = t := by
  obtain ⟨front, back, rfl, hfront, hback⟩ := Log.exists_split h hs
  rcases List.mem_append.mp ht with ht | ht
  · exact absurd heq (hfront t ht).ne'
  · rcases List.mem_cons.mp ht with rfl | ht
    · rfl
    · exact absurd heq (hback t ht).ne

/-- A change of one segment leaves the last one with frames where it was. -/
theorem Log.headed_modify {a : LogSegment} (h : L.Pairwise fun s t => s.number < t.number)
    (ha : L.headed.getLast? = some a) (hne : (f a).frames ≠ []) :
    (L.modify a.number f).headed.getLast? = some (f a) := by
  have haL := (Log.number_le_of_getLast? h ha).1
  obtain ⟨front, back, hL, hfront, hback⟩ := Log.exists_split h haL
  have hnil : Log.headed back = [] := by
    rw [Log.headed, List.filter_eq_nil_iff]
    intro t ht
    have := Log.frames_eq_nil_of_headed h ha (t := t) (by rw [hL]; simp [ht]) (hback t ht)
    simpa using this
  rw [Log.headed] at hnil
  rw [hL, Log.modify_split hfront hback, Log.headed, List.filter_append, List.filter_cons, hnil]
  simp [hne]

end Modify

/-- The synced frames of a segment are still synced when something is appended. -/
theorem LogSegment.take_synced_append {t : LogSegment} (ht : t.synced ≤ t.frames.length)
    (gs : List Frame) (torn : Bytes) (sync : Bool) :
    t.frames.take t.synced <+:
      (t.append gs torn sync).frames.take (t.append gs torn sync).synced := by
  cases sync with
  | false => simp [LogSegment.append, List.take_append_of_le_length ht]
  | true =>
    simp only [LogSegment.append, if_true, List.take_length]
    exact (List.take_prefix _ _).trans (List.prefix_append _ _)

/-- They are when it is truncated on opening. -/
theorem LogSegment.take_synced_truncate (t : LogSegment) :
    t.frames.take t.synced <+: t.truncate.frames.take t.truncate.synced := by
  by_cases ht : t.torn = []
  · simp [LogSegment.truncate, ht]
  · simpa [LogSegment.truncate, ht] using List.take_prefix t.synced t.frames

/-- They are when it is cut behind them. -/
theorem LogSegment.take_synced_cut {t : LogSegment} {k : ℕ} (hk : t.synced ≤ k) (torn : Bytes) :
    t.frames.take t.synced <+: (t.cut k torn).frames.take (t.cut k torn).synced := by
  have htake : (t.cut k torn).frames.take (t.cut k torn).synced = t.frames.take t.synced := by
    rw [LogSegment.cut, List.take_take, min_eq_left hk]
  exact htake ▸ List.prefix_rfl

/-- **A synced point stays one** when a segment not older than it keeps its synced frames. -/
theorem Log.SyncedTo.modify {L : Log} {w m n : ℕ} {f : LogSegment → LogSegment}
    (h : L.SyncedTo w n) (hnum : ∀ t, (f t).number = t.number)
    (hle : ∀ d ∈ L, 0 < d.synced → d.number ≤ w → d.number ≤ m)
    (hf : ∀ t ∈ L, t.number = m → 0 < t.synced →
      0 < (f t).synced ∧ t.frames.take t.synced <+: (f t).frames.take (f t).synced) :
    (L.modify m f).SyncedTo m n := by
  obtain ⟨d, hd, hpos, hdw, hn⟩ := h
  have hdm := hle d hd hpos hdw
  by_cases hm : d.number = m
  · obtain ⟨hpos', hpre⟩ := hf d hd hm hpos
    refine ⟨f d, Log.mem_modify.mpr (Or.inl ⟨d, hd, hm, rfl⟩), hpos', (hnum d).le.trans hdm, ?_⟩
    rw [hnum, Log.below_modify hnum hdm]
    have := (hpre.sublist.filter fun g => decide (g.kind = 2)).length_le
    simp only [LogSegment.txsOf] at hn ⊢
    omega
  · refine ⟨d, Log.mem_modify.mpr (Or.inr ⟨hd, hm⟩), hpos, hdm, ?_⟩
    rwa [Log.below_modify hnum hdm]

/-- A published root stays one when its segment keeps the synced frames. -/
theorem Log.Published.modify {P : Log} {root : Root} (h : P.Published root) {n : ℕ}
    {f : LogSegment → LogSegment}
    (hf : ∀ t ∈ P, t.number = n → t.frames.take t.synced ⊆ (f t).frames.take (f t).synced) :
    (P.modify n f).Published root := by
  obtain ⟨t, ht, g, hg, hr⟩ := h
  by_cases hn : t.number = n
  · exact ⟨f t, Log.mem_modify.mpr (Or.inl ⟨t, ht, hn, rfl⟩), g, hf t ht hn hg, hr⟩
  · exact ⟨t, Log.mem_modify.mpr (Or.inr ⟨ht, hn⟩), g, hg, hr⟩

theorem Log.Published.append_right {P : Log} {root : Root} (h : P.Published root) (M : Log) :
    Log.Published (P ++ M) root := by
  obtain ⟨t, ht, hf⟩ := h
  exact ⟨t, List.mem_append_left M ht, hf⟩

/-- Fewer transactions run too. -/
theorem Semantics.exists_run_of_append {s : S.State} {n : ℕ} {ps qs : List Bytes} {st : S.State}
    (h : S.run s n (ps ++ qs) = some st) : ∃ st', S.run s n ps = some st' := by
  rw [Semantics.run_append] at h
  obtain ⟨st', h, -⟩ := Option.bind_eq_some_iff.mp h
  exact ⟨st', h⟩

namespace Stored

variable {dir : Directory} {writing : ℕ} {L P : Log} {timeline ps : List Bytes} {floor : ℕ}
  {a : LogSegment}

/-- The bytes of the segments change as the log does. -/
theorem segments_modify (h : Stored S dir writing L P timeline floor) {n : ℕ}
    {f : LogSegment → LogSegment} {F : Segment → Segment}
    (hf : ∀ t ∈ L, t.number = n → (f t).segment = F t.segment) :
    (dir.modify n F).segments = (P.modify n f).segments := by
  rw [Log.segments_modify fun t ht => hf t (h.sublist.subset ht), ← h.segments]
  rfl

/-- Only the parts of `Stored` that speak of single segments change with one. -/
theorem keep_modify (h : Stored S dir writing L P timeline floor) {n : ℕ}
    {f : LogSegment → LogSegment} (hf : ∀ t, (f t).number = t.number) :
    ∀ t ∈ L.modify n f, floor ≤ t.number → t ∈ P.modify n f := by
  intro t ht hle
  rcases Log.mem_modify.mp ht with ⟨u, hu, hn, rfl⟩ | ⟨ht, hn⟩
  · exact Log.mem_modify.mpr (Or.inl ⟨u, h.keep u hu (hf u ▸ hle), hn, rfl⟩)
  · exact Log.mem_modify.mpr (Or.inr ⟨h.keep t ht hle, hn⟩)

theorem anchor_modify (h : Stored S dir writing L P timeline floor) {n : ℕ}
    {f : LogSegment → LogSegment}
    (hf : ∀ t ∈ L, t.number = n → t.frames.take t.synced ⊆ (f t).frames.take (f t).synced) :
    ∃ root, (P.modify n f).Published root ∧ floor ≤ root.generation := by
  obtain ⟨root, hroot, hle⟩ := h.anchor
  exact ⟨root, hroot.modify fun t ht => hf t (h.sublist.subset ht), hle⟩

/-- **Appending frames to the active segment.** A new root among them must have its
files, and denote what the transactions in front of it make. -/
theorem append (h : Stored S dir writing L P timeline floor)
    (ha : L.headed.getLast? = some a) {gs : List Frame} {torn : Bytes} {sync : Bool}
    {F : Segment → Segment} (hF : (a.append gs torn sync).segment = F a.segment)
    (hgs : ∀ f ∈ gs, LogSegment.FrameOk a.number f)
    (htorn : TornLog.Torn Frame.format Frame.Valid torn)
    (htx : LogSegment.txsOf gs = txFrames timeline.length ps)
    (hlen : timeline.length + ps.length ≤ maxU64)
    (hrun : ∃ st, S.run S.initial 0 (timeline ++ ps) = some st)
    (hroots : ∀ r ∈ gs.filterMap LogSegment.frameRoot,
      (L.below r.generation).transactions.length = r.lsn ∧
      (∀ r' ∈ L.roots, r'.generation ≠ r.generation) ∧
      (∀ r' ∈ gs.filterMap LogSegment.frameRoot, r' = r) ∧
      (∀ f ∈ r.files, f ∈ dir.tables) ∧ r.lsn ≤ timeline.length ∧
      ∃ st, S.run S.initial 0 (timeline.take r.lsn) = some st ∧ S.Denotes (E.load r) st) :
    Stored S (dir.modify a.number F) a.number (L.modify a.number (LogSegment.append gs torn sync))
      (P.modify a.number (LogSegment.append gs torn sync)) (timeline ++ ps) floor := by
  have hasc := h.sound.ascending
  obtain ⟨haL, hne, -⟩ := Log.number_le_of_getLast? hasc ha
  obtain ⟨front, back, hL, hfront, hback⟩ := Log.exists_split hasc haL
  have hnil : ∀ t ∈ back, t.frames = [] := fun t ht =>
    Log.frames_eq_nil_of_headed hasc ha (by rw [hL]; simp [ht]) (hback t ht)
  have hL' : L.modify a.number (LogSegment.append gs torn sync) =
      front ++ a.append gs torn sync :: back := by
    rw [hL]
    exact Log.modify_split hfront hback _
  have honly : ∀ t ∈ L, t.number = a.number → t = a := fun t ht hn =>
    Log.eq_of_number hasc ht haL hn
  have hroots' : ∀ r ∈ Log.roots (front ++ a.append gs torn sync :: back),
      r ∈ L.roots ∨ r ∈ gs.filterMap LogSegment.frameRoot := by
    intro r hr
    rw [hL]
    simp only [Log.roots, LogSegment.roots, LogSegment.append, List.flatMap_append,
      List.flatMap_cons, List.filterMap_append, List.mem_append] at hr ⊢
    tauto
  refine
    { sound := ?_
      control := h.control
      segments := h.segments_modify fun t ht hn => by rw [honly t ht hn, hF]
      sublist := h.sublist.map _
      keep := h.keep_modify fun t => rfl
      writing := fun t ht hlt => ?_
      length_le := by rwa [List.length_append]
      runs := hrun
      denotes := fun r hr => ?_
      tables := h.tables
      files := fun r hr hle => ?_
      anchor := h.anchor_modify fun t ht _ =>
        (LogSegment.take_synced_append (h.sound.synced_le t ht) gs torn sync).subset }
  · rw [hL']
    refine Log.Sound.append (hL ▸ h.sound) hnil hne hgs htorn htx fun r hr => ?_
    obtain ⟨hbelow, hfresh, hsame, -⟩ := hroots r hr
    exact ⟨hL ▸ hbelow, hL ▸ hfresh, hsame⟩
  · rcases Log.mem_modify.mp ht with ⟨u, -, hn, rfl⟩ | ⟨ht, -⟩
    · exact absurd hlt (by simp [LogSegment.append, hn])
    · exact Log.frames_eq_nil_of_headed hasc ha ht hlt
  · rw [hL'] at hr
    rcases hroots' r hr with hr | hr
    · rw [List.take_append_of_le_length (h.sound.lsn_le hr)]
      exact h.denotes r hr
    · obtain ⟨-, -, -, -, hle, hden⟩ := hroots r hr
      rwa [List.take_append_of_le_length hle]
  · rw [hL'] at hr
    rcases hroots' r hr with hr | hr
    · exact h.files r hr hle
    · exact (hroots r hr).2.2.2.1

/-- **Adding a segment** that is empty or repeats a root. -/
theorem add (h : Stored S dir writing L P timeline floor) {n : ℕ} {root : Root}
    (hroot : root ∈ L.roots) (hn : ∀ t ∈ L, t.number < n)
    (hwhole : ∀ t ∈ L, t.frames ≠ [] → t.torn = []) {frames : List Frame} {torn : Bytes}
    {synced : ℕ} (hframes : frames = [] ∨ frames = [rootFrame root])
    (htorn : TornLog.Torn Frame.format Frame.Valid torn) (hsynced : synced ≤ frames.length)
    (catalogs : List ℕ) :
    Stored S ({ dir with catalogs }.addSegment (LogSegment.mk n frames torn synced).segment) n
      (L ++ [⟨n, frames, torn, synced⟩]) (P ++ [⟨n, frames, torn, synced⟩]) timeline floor := by
  have hroots : ∀ r ∈ Log.roots (L ++ [⟨n, frames, torn, synced⟩]), r ∈ L.roots := by
    intro r hr
    rw [Log.roots_append, List.mem_append] at hr
    refine hr.elim id fun hr => ?_
    obtain ⟨s, hs, f, hf, hfr⟩ := Log.mem_roots.mp hroot
    obtain ⟨rfl, hdecode, -⟩ := (h.sound.frames s hs f hf).frameRoot hfr
    rcases hframes with rfl | rfl
    · simp [Log.roots, LogSegment.roots] at hr
    · have : r = root := by
        simpa [Log.roots, LogSegment.roots, LogSegment.frameRoot_rootFrame hdecode] using hr
      exact this ▸ hroot
  refine
    { sound := h.sound.add hroot hn hwhole hframes htorn hsynced
      control := h.control
      segments := by
        simp [Directory.addSegment, h.segments, Log.segments]
      sublist := h.sublist.append (List.Sublist.refl _)
      keep := fun t ht hle => ?_
      writing := fun t ht hlt => ?_
      length_le := h.length_le
      runs := h.runs
      denotes := fun r hr => h.denotes r (hroots r hr)
      tables := h.tables
      files := fun r hr => h.files r (hroots r hr)
      anchor := ?_ }
  · rcases List.mem_append.mp ht with ht | ht
    · exact List.mem_append_left _ (h.keep t ht hle)
    · exact List.mem_append_right _ ht
  · rcases List.mem_append.mp ht with ht | ht
    · exact absurd (hn t ht) (not_lt.mpr hlt.le)
    · rw [List.mem_singleton.mp ht] at hlt
      exact absurd hlt (lt_irrefl n)
  · obtain ⟨r, hr, hle⟩ := h.anchor
    exact ⟨r, hr.append_right _, hle⟩

/-- **Cutting the segment written last**, behind what is synced of it. -/
theorem cut (h : Stored S dir writing L P timeline floor) (ha : a ∈ L)
    (hwriting : a.number = writing) {k : ℕ} {torn : Bytes} {F : Segment → Segment}
    (hF : (a.cut k torn).segment = F a.segment) (hk : a.synced ≤ k)
    (htorn : TornLog.Torn Frame.format Frame.Valid torn) :
    Stored S (dir.modify writing F) writing (L.modify writing (LogSegment.cut k torn))
      (P.modify writing (LogSegment.cut k torn))
      (timeline.take ((L.below writing).transactions.length +
        (LogSegment.txsOf (a.frames.take k)).length)) floor := by
  have hasc := h.sound.ascending
  obtain ⟨front, back, hL, hfront, hback⟩ := Log.exists_split hasc ha
  have hnil : ∀ t ∈ back, t.frames = [] := fun t ht =>
    h.writing t (by rw [hL]; simp [ht]) (hwriting ▸ hback t ht)
  have hL' : L.modify writing (LogSegment.cut k torn) = front ++ a.cut k torn :: back := by
    rw [hL, ← hwriting]
    exact Log.modify_split hfront hback _
  have hbelow : L.below writing = front := by
    rw [hL, ← hwriting]
    exact Log.below_split hfront hback
  have honly : ∀ t ∈ L, t.number = writing → t = a := fun t ht hn =>
    Log.eq_of_number hasc ht ha (hn.trans hwriting.symm)
  have hroots : ∀ r ∈ Log.roots (front ++ a.cut k torn :: back), r ∈ L.roots := by
    intro r hr
    obtain ⟨t, ht, f, hf, hfr⟩ := Log.mem_roots.mp hr
    rw [hL]
    rcases List.mem_append.mp ht with ht | ht
    · exact Log.mem_roots.mpr ⟨t, by simp [ht], f, hf, hfr⟩
    · rcases List.mem_cons.mp ht with rfl | ht
      · exact Log.mem_roots.mpr ⟨a, by simp, f, List.mem_of_mem_take hf, hfr⟩
      · exact Log.mem_roots.mpr ⟨t, by simp [ht], f, hf, hfr⟩
  have hsound : Log.Sound (front ++ a.cut k torn :: back)
      (timeline.take ((L.below writing).transactions.length +
        (LogSegment.txsOf (a.frames.take k)).length)) := by
    rw [hbelow]
    exact (hL ▸ h.sound : Log.Sound (front ++ a :: back) timeline).cut hnil hk htorn
  refine
    { sound := hL' ▸ hsound
      control := h.control
      segments := h.segments_modify fun t ht hn => by rw [honly t ht hn, hF]
      sublist := h.sublist.map _
      keep := h.keep_modify fun t => rfl
      writing := fun t ht hlt => ?_
      length_le := by
        rw [List.length_take]
        exact (min_le_right _ _).trans h.length_le
      runs := ?_
      denotes := fun r hr => ?_
      tables := h.tables
      files := fun r hr => h.files r (hroots r (hL' ▸ hr))
      anchor := h.anchor_modify fun t ht hn => ?_ }
  · rcases Log.mem_modify.mp ht with ⟨u, -, hn, rfl⟩ | ⟨ht, -⟩
    · exact absurd hlt (by simp [LogSegment.cut, hn])
    · exact h.writing t ht hlt
  · obtain ⟨st, hst⟩ := h.runs
    rw [← List.take_append_drop ((L.below writing).transactions.length +
      (LogSegment.txsOf (a.frames.take k)).length) timeline] at hst
    exact Semantics.exists_run_of_append hst
  · rw [hL'] at hr
    have hle := hsound.lsn_le hr
    rw [List.length_take] at hle
    rw [List.take_take, min_eq_left (by omega)]
    exact h.denotes r (hroots r hr)
  · rw [honly t ht hn]
    exact (LogSegment.take_synced_cut hk torn).subset

/-- **The truncation of the active segment** on opening. -/
theorem truncate (h : Stored S dir writing L P timeline floor)
    (ha : L.headed.getLast? = some a) :
    Stored S (dir.modify a.number (Segment.setLen (frameBytes a.frames).length)) a.number
      (L.modify a.number LogSegment.truncate) (P.modify a.number LogSegment.truncate)
      timeline floor := by
  have hasc := h.sound.ascending
  obtain ⟨haL, hne, -⟩ := Log.number_le_of_getLast? hasc ha
  obtain ⟨front, back, hL, hfront, hback⟩ := Log.exists_split hasc haL
  have hnil : ∀ t ∈ back, t.frames = [] := fun t ht =>
    Log.frames_eq_nil_of_headed hasc ha (by rw [hL]; simp [ht]) (hback t ht)
  have hL' : L.modify a.number LogSegment.truncate = front ++ a.truncate :: back := by
    rw [hL]
    exact Log.modify_split hfront hback _
  have honly : ∀ t ∈ L, t.number = a.number → t = a := fun t ht hn =>
    Log.eq_of_number hasc ht haL hn
  have hroots : Log.roots (front ++ a.truncate :: back) = L.roots := by
    rw [hL]
    simp [Log.roots, LogSegment.roots, LogSegment.truncate]
  have hsynced := h.sound.synced_le a haL
  have hsound : Log.Sound (front ++ a.truncate :: back) timeline := by
    have hold : Log.Sound (front ++ a :: back) timeline := hL ▸ h.sound
    refine hold.replace hnil rfl (h.sound.frames a haL) (h.sound.header a haL) TornLog.torn_nil ?_
      (fun _ => hne) ?_ fun r hr => Or.inl hr
    · simp only [LogSegment.truncate]
      split <;> omega
    · have htx := hold.transactions
      have hback' := Log.transactions_eq_nil hnil
      simp only [Log.transactions, List.flatMap_append, List.flatMap_cons] at htx hback' ⊢
      rw [hback', List.append_nil] at htx
      exact htx
  exact
    { sound := hL' ▸ hsound
      control := h.control
      segments :=
        h.segments_modify fun t ht hn => by rw [honly t ht hn, LogSegment.segment_truncate]
      sublist := h.sublist.map _
      keep := h.keep_modify fun t => rfl
      writing := fun t ht hlt => by
        rcases Log.mem_modify.mp ht with ⟨u, -, hn, rfl⟩ | ⟨ht, -⟩
        · exact absurd hlt (by simp [LogSegment.truncate, hn])
        · exact Log.frames_eq_nil_of_headed hasc ha ht hlt
      length_le := h.length_le
      runs := h.runs
      denotes := fun r hr => h.denotes r (hroots ▸ hL' ▸ hr)
      tables := h.tables
      files := fun r hr => h.files r (hroots ▸ hL' ▸ hr)
      anchor := h.anchor_modify fun t _ _ => (LogSegment.take_synced_truncate t).subset }

end Stored

end EveDB
