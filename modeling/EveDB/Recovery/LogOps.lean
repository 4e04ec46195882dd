import EveDB.Recovery.Log

/-!
# What the steps do to a log

Three changes of a log keep it sound: frames appended to the last segment that has
any (`Log.Sound.append`), a cut of the segment written last (`Log.Sound.cut`), and a
new segment behind all others (`Log.Sound.add`). Each is stated on frames, together
with the lemma that says which bytes it stands for.
-/

namespace EveDB

/-- Applies `f` to the segments numbered `n`. -/
def Log.modify (L : Log) (n : ℕ) (f : LogSegment → LogSegment) : Log :=
  L.map fun s => if s.number = n then f s else s

/-- Frames behind the complete ones of a segment, and a torn remainder; everything is
synced, or nothing of it. -/
def LogSegment.append (gs : List Frame) (torn : Bytes) (sync : Bool) (s : LogSegment) :
    LogSegment where
  number := s.number
  frames := s.frames ++ gs
  torn := torn
  synced := if sync then (s.frames ++ gs).length else s.synced

/-- The first `k` frames of a segment, and a torn remainder. -/
def LogSegment.cut (k : ℕ) (torn : Bytes) (s : LogSegment) : LogSegment :=
  { s with frames := s.frames.take k, torn }

/-- Drops the torn remainder of a segment, and syncs it, if there is one. -/
def LogSegment.truncate (s : LogSegment) : LogSegment :=
  { s with torn := [], synced := if s.torn = [] then s.synced else s.frames.length }

/-! ### Splitting at a segment -/

section Split

variable {L : Log} {s : LogSegment}

/-- A segment splits its log into the older and the newer ones. -/
theorem Log.exists_split (h : L.Pairwise fun s t => s.number < t.number) (hs : s ∈ L) :
    ∃ front back, L = front ++ s :: back ∧ (∀ t ∈ front, t.number < s.number) ∧
      ∀ t ∈ back, s.number < t.number := by
  obtain ⟨front, back, rfl⟩ := List.append_of_mem hs
  rw [List.pairwise_append, List.pairwise_cons] at h
  exact ⟨front, back, rfl, fun t ht => h.2.2 t ht s List.mem_cons_self, h.2.1.1⟩

/-- Modifying a log at a segment that splits it. -/
theorem Log.modify_split {front back : Log} (hfront : ∀ t ∈ front, t.number < s.number)
    (hback : ∀ t ∈ back, s.number < t.number) (f : LogSegment → LogSegment) :
    Log.modify (front ++ s :: back) s.number f = front ++ f s :: back := by
  have h₁ : front.map (fun t => if t.number = s.number then f t else t) = front := by
    conv_rhs => rw [← List.map_id front]
    exact List.map_congr_left fun t ht => by rw [if_neg (hfront t ht).ne, id]
  have h₂ : back.map (fun t => if t.number = s.number then f t else t) = back := by
    conv_rhs => rw [← List.map_id back]
    exact List.map_congr_left fun t ht => by rw [if_neg (hback t ht).ne', id]
  rw [modify, List.map_append, List.map_cons, if_pos rfl, h₁, h₂]

theorem Log.mem_modify {n : ℕ} {f : LogSegment → LogSegment} {t : LogSegment} :
    t ∈ L.modify n f ↔ (∃ s ∈ L, s.number = n ∧ t = f s) ∨ (t ∈ L ∧ t.number ≠ n) := by
  rw [modify, List.mem_map]
  constructor
  · rintro ⟨s, hs, rfl⟩
    by_cases h : s.number = n
    · exact Or.inl ⟨s, hs, h, by rw [if_pos h]⟩
    · exact Or.inr (by rw [if_neg h]; exact ⟨hs, h⟩)
  · rintro (⟨s, hs, h, rfl⟩ | ⟨ht, h⟩)
    · exact ⟨s, hs, by rw [if_pos h]⟩
    · exact ⟨t, ht, by rw [if_neg h]⟩

/-- The files change as the log does. -/
theorem Log.segments_modify {n : ℕ} {f : LogSegment → LogSegment} {F : Segment → Segment}
    (h : ∀ s ∈ L, s.number = n → (f s).segment = F s.segment) :
    (L.modify n f).segments = L.segments.map fun s => if s.number = n then F s else s := by
  rw [modify, segments, segments, List.map_map, List.map_map]
  refine List.map_congr_left fun s hs => ?_
  by_cases hn : s.number = n
  · simp [hn, h s hs hn]
  · simp [hn]

end Split

/-! ### Soundness -/

section Sound

variable {front back : Log} {a a' : LogSegment} {timeline timeline' ps : List Bytes}

/-- Segments without a complete frame hold no transaction. -/
theorem Log.transactions_eq_nil {L : Log} (h : ∀ t ∈ L, t.frames = []) : L.transactions = [] := by
  rw [transactions, List.flatMap_eq_nil_iff]
  intro t ht
  simp [LogSegment.transactions, LogSegment.txsOf, h t ht]

/-- The last segment with frames bounds the generations of all roots. -/
theorem Log.Sound.generation_le (h : Log.Sound (front ++ a :: back) timeline)
    (hback : ∀ t ∈ back, t.frames = []) {r : Root} (hr : r ∈ Log.roots (front ++ a :: back)) :
    r.generation ≤ a.number := by
  obtain ⟨t, ht, f, hf, hfr⟩ := Log.mem_roots.mp hr
  have hle := ((h.frames t ht f hf).frameRoot hfr).2.2
  have hasc := h.ascending
  rw [List.pairwise_append] at hasc
  rcases List.mem_append.mp ht with ht | ht
  · exact hle.trans (hasc.2.2 t ht a List.mem_cons_self).le
  · rcases List.mem_cons.mp ht with rfl | ht
    · exact hle
    · rw [hback t ht] at hf
      cases hf

/-- A change of one segment does not touch what lies below its number. -/
theorem Log.below_replace (hnum : a'.number = a.number) {g : ℕ} (hg : g ≤ a.number) :
    Log.below (front ++ a' :: back) g = Log.below (front ++ a :: back) g := by
  have h : ¬ a.number < g := by omega
  simp [below, List.filter_append, hnum, h]

/-- **Replacing the last segment that has frames** keeps a log sound, when the new
frames are good, its transactions continue the older segments', and its roots are
the old ones or new ones of fresh generations. -/
theorem Log.Sound.replace (h : Log.Sound (front ++ a :: back) timeline)
    (hback : ∀ t ∈ back, t.frames = []) (hnum : a'.number = a.number)
    (hframes : ∀ f ∈ a'.frames, LogSegment.FrameOk a.number f)
    (hheader : ∀ f ∈ a'.frames.head?, f.kind = 1)
    (htorn : TornLog.Torn Frame.format Frame.Valid a'.torn)
    (hsynced : a'.synced ≤ a'.frames.length) (hne : a'.frames ≠ [] → a.frames ≠ [])
    (htx : Log.transactions front ++ a'.transactions = txFrames 0 timeline')
    (hroots : ∀ r ∈ a'.roots, r ∈ a.roots ∨
      (Log.below (front ++ a :: back) r.generation).transactions.length = r.lsn ∧
      ∀ r' ∈ Log.roots (front ++ a :: back) ++ a'.roots, r'.generation = r.generation → r' = r) :
    Log.Sound (front ++ a' :: back) timeline' := by
  have hmem : ∀ {t}, t ∈ front ++ a' :: back → t = a' ∨ t ∈ front ++ a :: back := by
    intro t ht
    simp only [List.mem_append, List.mem_cons] at ht ⊢
    tauto
  have hheaded : ∀ {t}, t ∈ front ++ a' :: back → t.frames ≠ [] → t = a' ∨ t ∈ front := by
    intro t ht hf
    rcases List.mem_append.mp ht with ht | ht
    · exact Or.inr ht
    · rcases List.mem_cons.mp ht with rfl | ht
      · exact Or.inl rfl
      · exact absurd (hback t ht) hf
  have hold : a ∈ front ++ a :: back := by simp
  have hasc := h.ascending
  rw [List.pairwise_append, List.pairwise_cons] at hasc
  obtain ⟨hfront, ⟨hab, hbb⟩, hfab⟩ := hasc
  have hfa : ∀ t ∈ front, t.number < a.number := fun t ht => hfab t ht a List.mem_cons_self
  have hallroots : ∀ r ∈ Log.roots (front ++ a' :: back),
      r ∈ Log.roots (front ++ a :: back) ∨ r ∈ a'.roots := by
    intro r hr
    simp only [Log.roots, List.flatMap_append, List.flatMap_cons, List.mem_append] at hr ⊢
    tauto
  have hle : ∀ r ∈ Log.roots (front ++ a' :: back), r.generation ≤ a.number := by
    intro r hr
    rcases hallroots r hr with hr | hr
    · exact h.generation_le hback hr
    · obtain ⟨f, hf, hfr⟩ := List.mem_filterMap.mp hr
      exact ((hframes f hf).frameRoot hfr).2.2
  have hnew : ∀ r ∈ Log.roots (front ++ a' :: back), r ∈ Log.roots (front ++ a :: back) ∨
      (Log.below (front ++ a :: back) r.generation).transactions.length = r.lsn ∧
      ∀ r' ∈ Log.roots (front ++ a :: back) ++ a'.roots,
        r'.generation = r.generation → r' = r := by
    intro r hr
    rcases hallroots r hr with hr | hr
    · exact Or.inl hr
    · refine (hroots r hr).imp_left fun hr => ?_
      simp only [Log.roots, List.flatMap_append, List.flatMap_cons, List.mem_append]
      tauto
  refine ⟨?_, fun t ht => ?_, fun t ht => ?_, fun t ht => ?_, fun t ht => ?_, ?_, ?_, ?_, ?_⟩
  · rw [List.pairwise_append, List.pairwise_cons]
    refine ⟨hfront, ⟨fun t ht => hnum ▸ hab t ht, hbb⟩, fun t ht u hu => ?_⟩
    rcases List.mem_cons.mp hu with rfl | hu
    · exact hnum ▸ hfa t ht
    · exact hfab t ht u (List.mem_cons_of_mem a hu)
  · rcases hmem ht with rfl | ht
    · exact fun f hf => hnum ▸ hframes f hf
    · exact h.frames t ht
  · rcases hmem ht with rfl | ht
    · exact hheader
    · exact h.header t ht
  · rcases hmem ht with rfl | ht
    · exact htorn
    · exact h.torn t ht
  · rcases hmem ht with rfl | ht
    · exact hsynced
    · exact h.synced_le t ht
  · intro t ht u hu hlt htf huf
    rcases hheaded ht htf with rfl | ht'
    · rcases hheaded hu huf with rfl | hu'
      · exact absurd hlt (lt_irrefl _)
      · have := hfa u hu'
        omega
    · have ht'' : t ∈ front ++ a :: back := by simp [ht']
      rcases hheaded hu huf with rfl | hu'
      · exact h.sealed t ht'' a hold (hnum ▸ hlt) htf (hne huf)
      · exact h.sealed t ht'' u (by simp [hu']) hlt htf huf
  · have hnil := Log.transactions_eq_nil hback
    rw [Log.transactions_append, ← htx]
    congr 1
    simp only [Log.transactions, List.flatMap_cons] at hnil ⊢
    rw [hnil, List.append_nil]
  · intro r hr
    rw [Log.below_replace hnum (hle r hr)]
    rcases hnew r hr with hr' | hr'
    · exact h.below r hr'
    · exact hr'.1
  · intro r hr r' hr' hg
    have hin : ∀ x ∈ Log.roots (front ++ a' :: back),
        x ∈ Log.roots (front ++ a :: back) ++ a'.roots := fun x hx =>
      List.mem_append.mpr (hallroots x hx)
    rcases hnew r hr with hold_r | hfresh
    · rcases hnew r' hr' with hold_r' | hfresh'
      · exact h.unique r hold_r r' hold_r' hg
      · exact hfresh'.2 r (hin r hr) hg
    · exact (hfresh.2 r' (hin r' hr') hg.symm).symm

/-- **Appending frames** to the last segment that has any. -/
theorem Log.Sound.append (h : Log.Sound (front ++ a :: back) timeline)
    (hback : ∀ t ∈ back, t.frames = []) (hne : a.frames ≠ []) {gs : List Frame} {torn : Bytes}
    {sync : Bool} (hgs : ∀ f ∈ gs, LogSegment.FrameOk a.number f)
    (htorn : TornLog.Torn Frame.format Frame.Valid torn)
    (htx : LogSegment.txsOf gs = txFrames timeline.length ps)
    (hroots : ∀ r ∈ gs.filterMap LogSegment.frameRoot,
      (Log.below (front ++ a :: back) r.generation).transactions.length = r.lsn ∧
      (∀ r' ∈ Log.roots (front ++ a :: back), r'.generation ≠ r.generation) ∧
      ∀ r' ∈ gs.filterMap LogSegment.frameRoot, r' = r) :
    Log.Sound (front ++ a.append gs torn sync :: back) (timeline ++ ps) := by
  have ha : a ∈ front ++ a :: back := by simp
  refine h.replace hback rfl (fun f hf => ?_) ?_ htorn ?_ (fun _ => hne) ?_ fun r hr => ?_
  · rcases List.mem_append.mp hf with hf | hf
    · exact h.frames a ha f hf
    · exact hgs f hf
  · obtain ⟨f, fs, hfs⟩ := List.exists_cons_of_ne_nil hne
    have := h.header a ha
    simpa [LogSegment.append, hfs] using this
  · have := h.synced_le a ha
    simp only [LogSegment.append, List.length_append]
    split <;> omega
  · have htx' := h.transactions
    have hnil := Log.transactions_eq_nil hback
    simp only [Log.transactions, List.flatMap_append, List.flatMap_cons] at htx' hnil ⊢
    rw [hnil, List.append_nil] at htx'
    rw [txFrames_append, Nat.zero_add, ← htx, ← htx', List.append_assoc]
    simp [LogSegment.append, LogSegment.transactions]
  · rw [LogSegment.roots, LogSegment.append, List.filterMap_append, List.mem_append] at hr
    refine hr.imp id fun hr => ?_
    obtain ⟨hbelow, hfresh, hsame⟩ := hroots r hr
    refine ⟨hbelow, fun r' hr' hg => ?_⟩
    rcases List.mem_append.mp hr' with hr' | hr'
    · exact absurd hg (hfresh r' hr')
    · rw [LogSegment.roots, LogSegment.append, List.filterMap_append, List.mem_append] at hr'
      rcases hr' with hr' | hr'
      · exact absurd hg (hfresh r' (by simp [Log.roots, LogSegment.roots, hr']))
      · exact hsame r' hr'

/-- **Cutting the segment written last** cuts the timeline behind it. -/
theorem Log.Sound.cut (h : Log.Sound (front ++ a :: back) timeline)
    (hback : ∀ t ∈ back, t.frames = []) {k : ℕ} {torn : Bytes} (hk : a.synced ≤ k)
    (htorn : TornLog.Torn Frame.format Frame.Valid torn) :
    Log.Sound (front ++ a.cut k torn :: back) (timeline.take
      ((Log.transactions front).length + (LogSegment.txsOf (a.frames.take k)).length)) := by
  have ha : a ∈ front ++ a :: back := by simp
  have hsub : ∀ {f}, f ∈ a.frames.take k → f ∈ a.frames := fun hf => List.mem_of_mem_take hf
  refine h.replace hback rfl (fun f hf => h.frames a ha f (hsub hf)) ?_ htorn ?_ ?_ ?_
    fun r hr => Or.inl ?_
  · intro f hf
    refine h.header a ha f ?_
    cases hfs : a.frames with
    | nil => simp [LogSegment.cut, hfs] at hf
    | cons g gs => cases k <;> simp_all [LogSegment.cut]
  · have := h.synced_le a ha
    simp only [LogSegment.cut, List.length_take]
    omega
  · intro hne hnil
    simp [LogSegment.cut, hnil] at hne
  · have htx := h.transactions
    have hnil := Log.transactions_eq_nil hback
    have hsplit : LogSegment.txsOf a.frames =
        LogSegment.txsOf (a.frames.take k) ++ LogSegment.txsOf (a.frames.drop k) := by
      rw [← LogSegment.txsOf_append, List.take_append_drop]
    simp only [Log.transactions, List.flatMap_append, List.flatMap_cons] at htx hnil ⊢
    rw [hnil, List.append_nil, LogSegment.transactions, hsplit, ← List.append_assoc] at htx
    rw [← txFrames_take, ← htx, List.take_left' (by simp)]
    rfl
  · obtain ⟨f, hf, hfr⟩ := List.mem_filterMap.mp hr
    exact List.mem_filterMap.mpr ⟨f, hsub hf, hfr⟩

/-- **A new segment behind all others**, empty or with its header. -/
theorem Log.Sound.add {L : Log} (h : L.Sound timeline) {n : ℕ} {root : Root}
    (hroot : root ∈ L.roots) (hn : ∀ t ∈ L, t.number < n)
    (hwhole : ∀ t ∈ L, t.frames ≠ [] → t.torn = []) {frames : List Frame} {torn : Bytes}
    {synced : ℕ} (hframes : frames = [] ∨ frames = [rootFrame root])
    (htorn : TornLog.Torn Frame.format Frame.Valid torn) (hsynced : synced ≤ frames.length) :
    Log.Sound (L ++ [⟨n, frames, torn, synced⟩]) timeline := by
  obtain ⟨s, hs, f, hf, hfr⟩ := Log.mem_roots.mp hroot
  have hfok := h.frames s hs f hf
  obtain ⟨rfl, hdecode, hle⟩ := hfok.frameRoot hfr
  have hok : ∀ g ∈ frames, LogSegment.FrameOk n g := by
    rcases hframes with rfl | rfl
    · simp
    · intro g hg
      rw [List.mem_singleton.mp hg]
      exact ⟨hfok.valid, hfok.kind, fun _ => ⟨root, rfl, hdecode, hle.trans (hn s hs).le⟩⟩
  have hmem : ∀ {t}, t ∈ L ++ [⟨n, frames, torn, synced⟩] →
      t ∈ L ∨ t = ⟨n, frames, torn, synced⟩ := fun ht => by simpa using ht
  have hroots : ∀ r ∈ Log.roots (L ++ [⟨n, frames, torn, synced⟩]), r ∈ L.roots := by
    intro r hr
    rw [Log.roots_append, List.mem_append] at hr
    refine hr.elim id fun hr => ?_
    rcases hframes with rfl | rfl
    · simp [Log.roots, LogSegment.roots] at hr
    · have : r = root := by
        simpa [Log.roots, LogSegment.roots, LogSegment.frameRoot_rootFrame hdecode] using hr
      exact this ▸ hroot
  have hbelow : ∀ r ∈ L.roots,
      Log.below (L ++ [⟨n, frames, torn, synced⟩]) r.generation = L.below r.generation := by
    intro r hr
    obtain ⟨t, ht, g, hg, hgr⟩ := Log.mem_roots.mp hr
    have hlt := ((h.frames t ht g hg).frameRoot hgr).2.2.trans_lt (hn t ht)
    simp [Log.below, not_lt.mpr hlt.le]
  refine ⟨?_, fun t ht => ?_, fun t ht => ?_, fun t ht => ?_, fun t ht => ?_, ?_, ?_, ?_, ?_⟩
  · rw [List.pairwise_append]
    exact ⟨h.ascending, List.pairwise_singleton _ _, fun t ht u hu => by
      rw [List.mem_singleton.mp hu]
      exact hn t ht⟩
  · rcases hmem ht with ht | rfl
    · exact h.frames t ht
    · exact hok
  · rcases hmem ht with ht | rfl
    · exact h.header t ht
    · rcases hframes with rfl | rfl <;> simp [rootFrame]
  · rcases hmem ht with ht | rfl
    · exact h.torn t ht
    · exact htorn
  · rcases hmem ht with ht | rfl
    · exact h.synced_le t ht
    · exact hsynced
  · intro t ht u hu hlt htf huf
    rcases hmem ht with ht | rfl
    · exact hwhole t ht htf
    · rcases hmem hu with hu | rfl
      · exact absurd (hlt.trans (hn u hu)) (lt_irrefl _)
      · exact absurd hlt (lt_irrefl _)
  · have hnil : Log.transactions [⟨n, frames, torn, synced⟩] = [] := by
      rcases hframes with rfl | rfl <;>
        simp [Log.transactions, LogSegment.transactions, LogSegment.txsOf, rootFrame]
    rw [Log.transactions_append, hnil, List.append_nil, h.transactions]
  · intro r hr
    rw [hbelow r (hroots r hr)]
    exact h.below r (hroots r hr)
  · exact fun r hr r' hr' => h.unique r (hroots r hr) r' (hroots r' hr')

end Sound

/-! ### The bytes of the changes -/

section Bytes

/-- **What a write leaves**: a prefix of the frames whole, and a torn remainder; all of
them when it succeeded or was synced. -/
theorem LogSegment.exists_append (o : WriteOutcome) {gs : List Frame}
    (hgs : ∀ f ∈ gs, f.Valid) {s : LogSegment} (htorn : s.torn = [])
    (hsynced : s.synced ≤ s.frames.length) :
    ∃ k torn, TornLog.Torn Frame.format Frame.Valid torn ∧
      (s.append (gs.take k) torn (o.synced (frameBytes gs))).segment =
        Segment.append o (frameBytes gs) s.segment ∧
      (o.failed = false → gs.take k = gs ∧ torn = []) := by
  have hwritten : ∃ k torn, TornLog.Torn Frame.format Frame.Valid torn ∧
      o.written (frameBytes gs) = frameBytes (gs.take k) ++ torn ∧
      (o.synced (frameBytes gs) = true → gs.take k = gs ∧ torn = []) ∧
      (o.failed = false → o.synced (frameBytes gs) = true) := by
    cases o with
    | ok => exact ⟨gs.length, [], TornLog.torn_nil, by simp [WriteOutcome.written], by simp, by
        simp [WriteOutcome.synced]⟩
    | error w sync =>
      obtain ⟨torn, ht, heq⟩ := TornLog.exists_take_encodeAll (F := Frame.format)
        (TornLog.torn_nil : TornLog.Torn Frame.format Frame.Valid []) gs hgs w
      rw [List.append_nil] at heq
      refine ⟨TornLog.whole Frame.format w gs, torn, ht, heq, fun hs => ?_, by
        simp [WriteOutcome.failed]⟩
      have hle : (frameBytes gs).length ≤ w := by
        simp only [WriteOutcome.synced, Bool.and_eq_true, decide_eq_true_eq] at hs
        exact hs.2
      have hall : gs.take (TornLog.whole Frame.format w gs) = gs := by
        rw [TornLog.whole_of_length_le hle, List.take_length]
      refine ⟨hall, ?_⟩
      rw [hall, show Frame.format.encodeAll gs = frameBytes gs from rfl,
        List.take_of_length_le hle] at heq
      exact List.self_eq_append_right.mp heq
  obtain ⟨k, torn, ht, hbytes, hsync, hfailed⟩ := hwritten
  refine ⟨k, torn, ht, ?_, fun ho => hsync (hfailed ho)⟩
  have htake : (s.frames ++ gs.take k).take s.synced = s.frames.take s.synced :=
    List.take_append_of_le_length hsynced
  cases hs : o.synced (frameBytes gs) with
  | false =>
    simp [LogSegment.segment, LogSegment.append, Segment.append, hs, hbytes, htorn, htake,
      List.append_assoc]
  | true =>
    obtain ⟨hk, rfl⟩ := hsync hs
    have hall : (s.frames ++ gs).take (s.frames.length + gs.length) = s.frames ++ gs :=
      List.take_of_length_le (by simp)
    simp [LogSegment.segment, LogSegment.append, Segment.append, hs, hbytes, htorn, hk, hall]

/-- **What a cut leaves**: a prefix of the frames that includes the synced ones. -/
theorem LogSegment.exists_cut {s : LogSegment} (hframes : ∀ f ∈ s.frames, f.Valid)
    (htorn : TornLog.Torn Frame.format Frame.Valid s.torn)
    (hsynced : s.synced ≤ s.frames.length) {length : ℕ} (hlength : s.segment.durable ≤ length) :
    ∃ k torn, TornLog.Torn Frame.format Frame.Valid torn ∧ s.synced ≤ k ∧
      (s.cut k torn).segment = Segment.cut length s.segment := by
  obtain ⟨torn, ht, heq⟩ := TornLog.exists_take_encodeAll (F := Frame.format) htorn s.frames
    hframes length
  have hk : s.synced ≤ TornLog.whole Frame.format length s.frames := by
    have hle : (Frame.format.encodeAll (s.frames.take s.synced)).length ≤ length := hlength
    have hsplit := TornLog.whole_append_of_le hle (s.frames.drop s.synced)
    rw [List.take_append_drop, List.length_take, min_eq_left hsynced] at hsplit
    omega
  refine ⟨_, torn, ht, hk, ?_⟩
  have htake : (s.frames.take (TornLog.whole Frame.format length s.frames)).take s.synced =
      s.frames.take s.synced := by
    rw [List.take_take, min_eq_left hk]
  simp only [LogSegment.segment, LogSegment.cut, Segment.cut, htake]
  rw [show frameBytes s.frames = Frame.format.encodeAll s.frames from rfl, heq]
  rfl

/-- What the truncation on opening leaves: the complete frames. -/
theorem LogSegment.segment_truncate (s : LogSegment) :
    s.truncate.segment = Segment.setLen (frameBytes s.frames).length s.segment := by
  by_cases h : s.torn = []
  · simp [LogSegment.segment, LogSegment.truncate, Segment.setLen, h]
  · simp [LogSegment.segment, LogSegment.truncate, Segment.setLen, h]

end Bytes

end EveDB
