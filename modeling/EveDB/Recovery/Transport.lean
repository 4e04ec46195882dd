import EveDB.Recovery.Directory

/-!
# Engines that replay alike

Recovery reads a directory in the same way whatever replays the transactions it finds. So two
engines on the same views, the second of which replays whatever the first one does, recover the
same (`openWithOptions_transport`). And what holds of the view of every manifest, and is kept by
every replay, holds of the view that is recovered (`openWithOptions_keeps`).
-/

namespace EveDB

variable {V : Type} {load : Root → V} {replay replay' : V → ℕ → Bytes → Result V}

/-- The state of a replay, under another engine. -/
def Replay.transport (s : Replay ⟨V, load, replay⟩) : Replay ⟨V, load, replay'⟩ where
  view := s.view
  lsn := s.lsn
  walBytes := s.walBytes
  completeEnd := s.completeEnd
  activeEnd := s.activeEnd
  replayed := s.replayed

/-- What has been opened, under another engine. -/
def Opened.transport (o : Opened ⟨V, load, replay⟩) : Opened ⟨V, load, replay'⟩ where
  dir := o.dir
  root := o.root
  active := o.active
  nextGeneration := o.nextGeneration
  view := o.view
  lsn := o.lsn
  walBytes := o.walBytes
  replayed := o.replayed

/-- A fold whose steps carry over carries over. -/
theorem foldlM_transport {σ τ α : Type} {g : σ → α → Result σ} {g' : τ → α → Result τ} {f : σ → τ}
    (h : ∀ s a s', g s a = .ok s' → g' (f s) a = .ok (f s')) {l : List α} {s s' : σ}
    (hl : l.foldlM g s = .ok s') : l.foldlM g' (f s) = .ok (f s') := by
  induction l generalizing s with
  | nil =>
    cases hl
    rfl
  | cons a l ih =>
    rw [List.foldlM_cons] at hl ⊢
    obtain ⟨s₁, hs₁, hrest⟩ := bind_eq_ok.mp hl
    rw [h s a s₁ hs₁, ok_bind]
    exact ih hrest

variable (hreplay : ∀ v n p v', replay v n p = .ok v' → replay' v n p = .ok v')

include hreplay

theorem replayRecord_transport {root : Root} {record : Frame} {s s' : Replay ⟨V, load, replay⟩}
    (h : replayRecord root s record = .ok s') :
    replayRecord root (s.transport : Replay ⟨V, load, replay'⟩) record = .ok s'.transport := by
  unfold replayRecord at h ⊢
  dsimp only at h ⊢
  split at h
  · next hkind =>
    rw [if_pos hkind]
    cases h
    rfl
  · next hkind =>
    rw [if_neg hkind]
    split at h
    · cases h
    · next htx =>
      rw [if_neg htx]
      split at h
      · next hlsn =>
        rw [if_pos hlsn]
        split at h
        · cases h
        · next hnext =>
          obtain ⟨view, hview, heq⟩ := bind_eq_ok.mp h
          cases heq
          have hnext' : ¬ checkedAdd (s.transport : Replay ⟨V, load, replay'⟩).lsn 1 ≠
            some record.lsn := hnext
          rw [if_neg hnext']
          exact bind_eq_ok.mpr ⟨view, hreplay _ _ _ _ hview, rfl⟩
      · next hlsn =>
        rw [if_neg hlsn]
        cases h
        rfl

theorem replaySegment_transport {root : Root} {active : ℕ} {segment : Segment}
    {s s' : Replay ⟨V, load, replay⟩} (h : replaySegment root active s segment = .ok s') :
    replaySegment root active (s.transport : Replay ⟨V, load, replay'⟩) segment =
      .ok s'.transport := by
  unfold replaySegment at h ⊢
  split at h
  · next hskip =>
    rw [if_pos hskip]
    cases h
    rfl
  · next hskip =>
    rw [if_neg hskip]
    obtain ⟨found, hfound, hrest⟩ := bind_eq_ok.mp h
    refine bind_eq_ok.mpr ⟨found, hfound, ?_⟩
    cases found with
    | none =>
      cases hrest
      rfl
    | some found =>
      obtain ⟨header, bytes⟩ := found
      dsimp only at hrest ⊢
      split at hrest
      · cases hrest
      · next hkind =>
        rw [if_neg hkind]
        obtain ⟨s₁, hs₁, hend⟩ := bind_eq_ok.mp hrest
        obtain ⟨⟨s₂, left⟩, hscan, rfl⟩ := map_eq_ok.mp hs₁
        have hscan' := TornLog.scan_transport (f := Replay.transport)
          (fun s a s' => replayRecord_transport hreplay) hscan
        refine bind_eq_ok.mpr ⟨Replay.transport s₂, map_eq_ok.mpr ⟨_, hscan', rfl⟩, ?_⟩
        split at hend
        · cases hend
        · next hsealed =>
          have hsealed' : ¬ (segment.number ≠ active ∧
              (s₂.transport : Replay ⟨V, load, replay'⟩).completeEnd ≠ segment.bytes.length) :=
            hsealed
          rw [if_neg hsealed']
          split at hend
          · next hactive =>
            rw [if_pos hactive]
            cases hend
            rfl
          · next hactive =>
            rw [if_neg hactive]
            cases hend
            rfl

/-- **Engines that replay alike open alike.** -/
theorem openWithOptions_transport {dir : Directory} {o : Opened ⟨V, load, replay⟩}
    (h : openWithOptions ⟨V, load, replay⟩ dir = .ok o) :
    openWithOptions ⟨V, load, replay'⟩ dir = .ok o.transport := by
  unfold openWithOptions at h ⊢
  split at h
  · cases h
  · next hcontrol =>
    rw [if_neg hcontrol]
    cases hlast : dir.segments.getLast? with
    | none =>
      rw [hlast] at h
      cases h
    | some last =>
      rw [hlast] at h
      obtain ⟨found, hfound, hrest⟩ := bind_eq_ok.mp h
      obtain ⟨root, hroot, hrest⟩ := bind_eq_ok.mp hrest
      refine bind_eq_ok.mpr ⟨found, hfound, bind_eq_ok.mpr ⟨root, hroot, ?_⟩⟩
      cases hactive : found.activeGeneration with
      | none =>
        rw [hactive] at hrest
        cases hrest
      | some active =>
        rw [hactive] at hrest
        obtain ⟨s, hs, heq⟩ := bind_eq_ok.mp hrest
        cases heq
        have hs' := foldlM_transport (f := Replay.transport)
          (fun s a s' => replaySegment_transport hreplay) hs
        exact bind_eq_ok.mpr ⟨_, hs', rfl⟩

omit hreplay

/-! ### What replay keeps -/

/-- What every step of a fold keeps, the fold keeps. -/
theorem foldlM_keeps {σ α : Type} {I : σ → Prop} {g : σ → α → Result σ}
    (h : ∀ s a s', I s → g s a = .ok s' → I s') {l : List α} {s s' : σ} (hs : I s)
    (hl : l.foldlM g s = .ok s') : I s' := by
  induction l generalizing s with
  | nil =>
    cases hl
    exact hs
  | cons a l ih =>
    rw [List.foldlM_cons] at hl
    obtain ⟨s₁, hs₁, hrest⟩ := bind_eq_ok.mp hl
    exact ih (h s a s₁ hs hs₁) hrest

section Keeps

variable {E : Engine} {I : Replay E → Prop}
  (hrecord : ∀ root s record s', I s → replayRecord root s record = .ok s' → I s')
  (hends : ∀ s completeEnd activeEnd, I s → I { s with completeEnd, activeEnd })

include hrecord hends

/-- What every record keeps, a segment keeps, since it only moves the ends besides. -/
theorem replaySegment_keeps {root : Root} {active : ℕ} {segment : Segment} {s s' : Replay E}
    (hs : I s) (h : replaySegment root active s segment = .ok s') : I s' := by
  unfold replaySegment at h
  split at h
  · cases h
    exact hs
  obtain ⟨found, -, hrest⟩ := bind_eq_ok.mp h
  cases found with
  | none =>
    cases hrest
    exact hs
  | some found =>
    obtain ⟨header, bytes⟩ := found
    dsimp only at hrest
    split at hrest
    · cases hrest
    · obtain ⟨s₁, hs₁, hend⟩ := bind_eq_ok.mp hrest
      obtain ⟨⟨s₂, left⟩, hscan, rfl⟩ := map_eq_ok.mp hs₁
      have hs₂ : I s₂ := by
        refine TornLog.scan_keeps (fun s a s' => hrecord root s a s') ?_ hscan
        exact hends s _ s.activeEnd hs
      split at hend
      · cases hend
      split at hend
      · cases hend
        exact hends s₂ s₂.completeEnd _ hs₂
      · cases hend
        exact hs₂

/-- **What replay keeps** holds of what is recovered, if it holds before the first record. -/
theorem openWithOptions_invariant
    (hload : ∀ root : Root, I ⟨E.load root, root.lsn, 0, 0, 0, []⟩) {dir : Directory}
    {o : Opened E} (h : openWithOptions E dir = .ok o) :
    ∃ s, I s ∧ s.view = o.view ∧ s.lsn = o.lsn ∧ s.walBytes = o.walBytes ∧
      s.replayed = o.replayed := by
  unfold openWithOptions at h
  split at h
  · cases h
  split at h
  · cases h
  obtain ⟨found, -, hrest⟩ := bind_eq_ok.mp h
  obtain ⟨root, -, hrest⟩ := bind_eq_ok.mp hrest
  cases hactive : found.activeGeneration with
  | none =>
    rw [hactive] at hrest
    cases hrest
  | some active =>
    rw [hactive] at hrest
    obtain ⟨s, hs, heq⟩ := bind_eq_ok.mp hrest
    cases heq
    exact ⟨s, foldlM_keeps (fun _ _ _ => replaySegment_keeps hrecord hends) (hload root) hs,
      rfl, rfl, rfl, rfl⟩

end Keeps

variable {P : V → Prop} (hkeeps : ∀ v n p v', P v → replay v n p = .ok v' → P v')

include hkeeps

theorem replayRecord_keeps {root : Root} {record : Frame} {s s' : Replay ⟨V, load, replay⟩}
    (hs : P s.view) (h : replayRecord root s record = .ok s') : P s'.view := by
  unfold replayRecord at h
  dsimp only at h
  split at h
  · cases h
    exact hs
  split at h
  · cases h
  split at h
  · split at h
    · cases h
    · obtain ⟨view, hview, heq⟩ := bind_eq_ok.mp h
      cases heq
      exact hkeeps _ _ _ _ hs hview
  · cases h
    exact hs

/-- What replay keeps of the views of manifests holds of the recovered view. -/
theorem openWithOptions_keeps (hload : ∀ r, P (load r)) {dir : Directory}
    {o : Opened ⟨V, load, replay⟩} (h : openWithOptions ⟨V, load, replay⟩ dir = .ok o) :
    P o.view := by
  obtain ⟨s, hs, hview, -⟩ := @openWithOptions_invariant ⟨V, load, replay⟩ (fun s => P s.view)
    (fun _ _ _ _ hs hrecord => replayRecord_keeps hkeeps hs hrecord) (fun _ _ _ hs => hs) hload
    dir o h
  rw [← hview]
  exact hs

end EveDB
