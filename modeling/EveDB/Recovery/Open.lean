import EveDB.Recovery.Log
import Mathlib.Data.List.TakeWhile

/-!
# Opening a sound log

What `openWithOptions` makes of a directory whose segments hold a sound log. The
first pass collects the roots of the log (`survey_segments`), the newest of them is
selected when its files are there (`newestRoot_eq`), and the second pass replays the
sequences behind it (`replay_segments`). The segments recovery reads may be fewer
than the log has: the ones below the selected root's generation are not needed.

The result is `open_sound`.
-/

namespace EveDB

variable {E : Engine} {S : Semantics E}

/-! ### Reading the records of a segment -/

/-- The reader sees the complete frames of a segment. -/
theorem readRecords_frames {σ : Type} (body : σ → Frame → Result σ) (s : σ) {frames : List Frame}
    {torn : Bytes} (hframes : ∀ f ∈ frames, f.Valid)
    (htorn : TornLog.Torn Frame.format Frame.Valid torn) :
    readRecords body s (frameBytes frames ++ torn) = frames.foldlM body s := by
  have hlen : frames.length ≤ (frameBytes frames).length :=
    TornLog.length_le_length_encodeAll Frame.lawful frames hframes
  rw [readRecords, frameBytes, TornLog.scan_encodeAll Frame.lawful body htorn frames hframes
    (by rw [List.length_append]; rw [frameBytes] at hlen; omega)]
  cases frames.foldlM body s <;> rfl

/-! ### Pass one -/

section Survey

variable {number : ℕ} {frames : List Frame}

/-- The survey behind the first frame of a segment. -/
theorem surveyRecords_rest (h : ∀ f ∈ frames, LogSegment.FrameOk number f) (roots : List Root) :
    frames.foldlM (surveyRecord number) ⟨false, some number, roots⟩ =
      .ok ⟨false, some number, roots ++ frames.filterMap LogSegment.frameRoot⟩ := by
  induction frames generalizing roots with
  | nil => simp
  | cons f fs ih =>
    have hf := h f List.mem_cons_self
    have ih := ih fun g hg => h g (List.mem_cons_of_mem f hg)
    rw [List.foldlM_cons]
    rcases hf.kind with hk | hk
    · obtain ⟨r, rfl, hdecode, hle⟩ := hf.root hk
      have hstep : surveyRecord number ⟨false, some number, roots⟩ (rootFrame r) =
          .ok ⟨false, some number, roots ++ [r]⟩ := by
        simp [surveyRecord, rootFrame, hdecode, not_lt.mpr hle]
      rw [hstep, ok_bind, ih, List.filterMap_cons, LogSegment.frameRoot_rootFrame hdecode]
      simp
    · have hstep : surveyRecord number ⟨false, some number, roots⟩ f =
          .ok ⟨false, some number, roots⟩ := by
        simp [surveyRecord, hk]
      rw [hstep, ok_bind, ih, List.filterMap_cons, LogSegment.frameRoot_of_kind (by omega)]

/-- **The survey of one segment** adds its roots, and makes it the active one if it
holds a complete frame. -/
theorem surveySegment_segment {s : LogSegment} (h : ∀ f ∈ s.frames, LogSegment.FrameOk s.number f)
    (hheader : ∀ f ∈ s.frames.head?, f.kind = 1)
    (htorn : TornLog.Torn Frame.format Frame.Valid s.torn) (first : Bool) (active : Option ℕ)
    (roots : List Root) :
    ∃ first', surveySegment ⟨first, active, roots⟩ s.segment =
      .ok ⟨first', if s.frames = [] then active else some s.number, roots ++ s.roots⟩ := by
  rw [surveySegment, LogSegment.segment_bytes, LogSegment.segment_number,
    readRecords_frames _ _ (fun f hf => (h f hf).valid) htorn, LogSegment.roots]
  cases hfs : s.frames with
  | nil => exact ⟨true, by simp⟩
  | cons f fs =>
    rw [hfs] at h hheader
    have hk : f.kind = 1 := hheader f (by simp)
    obtain ⟨r, rfl, hdecode, hle⟩ := (h f List.mem_cons_self).root hk
    have hstep : surveyRecord s.number ⟨true, active, roots⟩ (rootFrame r) =
        .ok ⟨false, some s.number, roots ++ [r]⟩ := by
      simp [surveyRecord, rootFrame, hdecode, not_lt.mpr hle]
    refine ⟨false, ?_⟩
    rw [List.foldlM_cons, hstep, ok_bind,
      surveyRecords_rest fun g hg => h g (List.mem_cons_of_mem _ hg), List.filterMap_cons,
      LogSegment.frameRoot_rootFrame hdecode]
    simp

/-- **The first pass** finds the roots of the log, and the last segment with a
complete frame. -/
theorem survey_segments {L : Log} (h : ∀ s ∈ L, ∀ f ∈ s.frames, LogSegment.FrameOk s.number f)
    (hheader : ∀ s ∈ L, ∀ f ∈ s.frames.head?, f.kind = 1)
    (htorn : ∀ s ∈ L, TornLog.Torn Frame.format Frame.Valid s.torn) :
    ∃ first, survey L.segments =
      .ok ⟨first, L.headed.getLast?.map LogSegment.number, L.roots⟩ := by
  suffices hgen : ∀ (M : Log) first active roots, M ⊆ L →
      ∃ first', M.segments.foldlM surveySegment ⟨first, active, roots⟩ =
        .ok ⟨first', (M.headed.getLast?.map LogSegment.number).or active, roots ++ M.roots⟩ by
    obtain ⟨first, hfirst⟩ := hgen L true none [] (List.Subset.refl L)
    exact ⟨first, by rw [survey, hfirst]; simp⟩
  intro M
  induction M with
  | nil => exact fun first active roots _ => ⟨first, by simp [Log.segments, Log.headed, Log.roots]⟩
  | cons s M ih =>
    intro first active roots hsub
    have hs := hsub List.mem_cons_self
    obtain ⟨first₁, h₁⟩ := surveySegment_segment (h s hs) (hheader s hs) (htorn s hs) first active
      roots
    obtain ⟨first₂, h₂⟩ := ih first₁ (if s.frames = [] then active else some s.number)
      (roots ++ s.roots) fun t ht => hsub (List.mem_cons_of_mem s ht)
    refine ⟨first₂, ?_⟩
    rw [Log.segments, List.map_cons, List.foldlM_cons, h₁, ok_bind]
    rw [Log.segments] at h₂
    rw [h₂, Log.headed_cons]
    by_cases hnil : s.frames = []
    · simp [hnil, Log.roots]
    · rw [if_neg hnil, if_neg hnil, List.getLast?_cons]
      cases (Log.headed M).getLast? <;> simp [Log.roots]

end Survey

/-! ### The newest root -/

section Select

theorem dedupByGeneration_subset (roots : List Root) : dedupByGeneration roots ⊆ roots := by
  induction roots with
  | nil => simp [dedupByGeneration]
  | cons r rs ih =>
    rw [dedupByGeneration]
    refine List.cons_subset_cons r fun x hx => ih ?_
    exact (List.dropWhile_suffix _).subset hx

/-- Dropping repeated generations keeps the last one. -/
theorem dedupByGeneration_getLast? (roots : List Root) :
    (dedupByGeneration roots).getLast?.map Root.generation =
      roots.getLast?.map Root.generation := by
  induction roots with
  | nil => rfl
  | cons r rs ih =>
    rw [dedupByGeneration, List.getLast?_cons, List.getLast?_cons]
    obtain ⟨pre, hpre⟩ : (dedupByGeneration rs).dropWhile (fun next =>
        next.generation = r.generation) <:+ dedupByGeneration rs := List.dropWhile_suffix _
    cases hdrop : (dedupByGeneration rs).dropWhile fun next => next.generation = r.generation with
    | cons x xs =>
      rw [← hpre, hdrop, List.getLast?_append] at ih
      have hx : (x :: xs).getLast? = some ((x :: xs).getLast (by simp)) :=
        List.getLast?_eq_some_getLast (by simp)
      rw [hx] at ih ⊢
      cases hrs : rs.getLast? with
      | none => simp [hrs] at ih
      | some y => simpa [hrs] using ih
    | nil =>
      have hall : ∀ x ∈ dedupByGeneration rs, x.generation = r.generation := by
        simpa [List.dropWhile_eq_nil_iff] using hdrop
      cases hlast : (dedupByGeneration rs).getLast? with
      | none =>
        rw [hlast] at ih
        cases hrs : rs.getLast? with
        | none => simp
        | some y => simp [hrs] at ih
      | some x =>
        have hx := hall x (List.mem_of_getLast? hlast)
        rw [hlast] at ih
        cases hrs : rs.getLast? with
        | none => simp [hrs] at ih
        | some y =>
          simp only [hrs, Option.map_some, Option.some.injEq] at ih
          simp [hx ▸ ih]

/-- **The newest root whose files are there is selected.** -/
theorem newestRoot_eq {tables : List FileInfo} {roots : List Root} {root : Root}
    (hmem : root ∈ roots) (hmax : ∀ r ∈ roots, r.generation ≤ root.generation)
    (hunique : ∀ r ∈ roots, r.generation = root.generation → r = root)
    (hverify : verifyFiles tables root.files = .ok ()) :
    newestRoot tables roots = .ok root := by
  set sorted := roots.mergeSort fun a b => a.generation ≤ b.generation with hsorted
  have hperm : sorted.Perm roots := List.mergeSort_perm _ _
  have hpair : sorted.Pairwise fun a b => a.generation ≤ b.generation := by
    have hle : ∀ a b c : Root, decide (a.generation ≤ b.generation) = true →
        decide (b.generation ≤ c.generation) = true → decide (a.generation ≤ c.generation) = true :=
      fun a b c => by simpa using fun h₁ h₂ => le_trans h₁ h₂
    have := List.pairwise_mergeSort hle
      (fun a b => by simpa using le_total a.generation b.generation) roots
    simpa using this
  obtain ⟨last, hlast⟩ : ∃ last, sorted.getLast? = some last := by
    have hne : sorted ≠ [] := List.ne_nil_of_mem (hperm.mem_iff.mpr hmem)
    exact ⟨_, List.getLast?_eq_some_getLast hne⟩
  have hgen : last.generation = root.generation := by
    refine le_antisymm (hmax _ (hperm.mem_iff.mp (List.mem_of_getLast? hlast))) ?_
    obtain ⟨front, hfront⟩ : ∃ front, sorted = front ++ [last] := by
      obtain ⟨ys, hys⟩ := List.getLast?_eq_some_iff.mp hlast
      exact ⟨ys, hys⟩
    rcases List.mem_append.mp (hfront ▸ hperm.mem_iff.mpr hmem) with h | h
    · rw [hfront, List.pairwise_append] at hpair
      exact hpair.2.2 root h last (by simp)
    · rw [List.mem_singleton.mp h]
  obtain ⟨newest, hnewest⟩ : ∃ x, (dedupByGeneration sorted).getLast? = some x := by
    have := dedupByGeneration_getLast? sorted
    cases h : (dedupByGeneration sorted).getLast? with
    | none => simp [h, hlast] at this
    | some x => exact ⟨x, rfl⟩
  have hnew : newest = root := by
    have := dedupByGeneration_getLast? sorted
    rw [hnewest, hlast, Option.map_some, Option.map_some, Option.some.injEq, hgen] at this
    refine hunique _ (hperm.mem_iff.mp ?_) this
    exact dedupByGeneration_subset _ (List.mem_of_getLast? hnewest)
  obtain ⟨front, hfront⟩ := List.getLast?_eq_some_iff.mp hnewest
  rw [newestRoot, ← hsorted, hfront, List.reverse_append, hnew]
  simp [selectRoot, hverify]

end Select

/-! ### Pass two -/

section Replay

variable {root : Root} {number active n : ℕ} {ps : List Bytes} {st st' : S.State}

/-- **The records of a segment** take the view from the sequence `n` over the
transactions among them. -/
theorem replayRecords_frames {frames : List Frame}
    (h : ∀ f ∈ frames, LogSegment.FrameOk number f)
    (htx : LogSegment.txsOf frames = txFrames n ps) (hroot : root.lsn ≤ n)
    (hmax : n + ps.length ≤ maxU64) (s : Replay E) (hlsn : s.lsn = n)
    (hd : S.Denotes s.view st) (hrun : S.run st n ps = some st') :
    ∃ view walBytes, frames.foldlM (replayRecord root) s =
      .ok { view, lsn := n + ps.length, walBytes, activeEnd := s.activeEnd,
            completeEnd := s.completeEnd + (frameBytes frames).length,
            replayed := s.replayed ++ numbered n ps } ∧ S.Denotes view st' := by
  induction frames generalizing n ps st s with
  | nil =>
    have hps : ps = [] := by
      have := congrArg List.length htx
      simpa [LogSegment.txsOf] using this.symm
    subst hps
    obtain rfl : st = st' := by simpa [Semantics.run] using hrun
    exact ⟨s.view, s.walBytes, by simp [numbered, ← hlsn], hd⟩
  | cons f fs ih =>
    have hf := h f List.mem_cons_self
    have hfs : ∀ g ∈ fs, LogSegment.FrameOk number g := fun g hg => h g (List.mem_cons_of_mem f hg)
    have hlen : s.completeEnd + (frameBytes (f :: fs)).length =
        s.completeEnd + (40 + f.payload.length) + (frameBytes fs).length := by
      rw [frameBytes_cons, List.length_append, Frame.length_bytes]
      omega
    rw [List.foldlM_cons, hlen]
    rcases hf.kind with hk | hk
    · -- A root only moves the end of the complete records.
      have htx' : LogSegment.txsOf fs = txFrames n ps := by
        simpa [LogSegment.txsOf, hk] using htx
      have hstep : replayRecord root s f =
          .ok { s with completeEnd := s.completeEnd + (40 + f.payload.length) } := by
        simp [replayRecord, hk]
      rw [hstep, ok_bind]
      exact ih hfs htx' hroot hmax _ hlsn hd hrun
    · have htx' : f :: LogSegment.txsOf fs = txFrames n ps := by
        simpa [LogSegment.txsOf, hk] using htx
      cases ps with
      | nil => cases htx'
      | cons p ps =>
        rw [txFrames, List.cons.injEq] at htx'
        obtain ⟨rfl, htx'⟩ := htx'
        rw [List.length_cons] at hmax
        rw [Semantics.run] at hrun
        obtain ⟨mid, hexec, hrun⟩ := Option.bind_eq_some_iff.mp hrun
        obtain ⟨view, hview, hd'⟩ := S.replay_denotes hd hexec
        have hnext : checkedAdd s.lsn 1 = some (n + 1) :=
          checkedAdd_eq_some.mpr ⟨by rw [hlsn], by omega⟩
        have hstep : replayRecord root s ⟨2, n + 1, p⟩ = .ok
            { s with
              completeEnd := s.completeEnd + (40 + p.length), view, lsn := n + 1
              walBytes := saturatingAdd s.walBytes (40 + p.length)
              replayed := s.replayed ++ [(n + 1, p)] } := by
          simp [replayRecord, hnext, hview, show root.lsn < n + 1 by omega]
        rw [hstep, ok_bind]
        obtain ⟨view', walBytes, hfold, hd''⟩ := ih hfs htx' (by omega) (by omega)
          { s with
            completeEnd := s.completeEnd + (40 + p.length), view, lsn := n + 1
            walBytes := saturatingAdd s.walBytes (40 + p.length)
            replayed := s.replayed ++ [(n + 1, p)] } rfl hd' hrun
        refine ⟨view', walBytes, ?_, hd''⟩
        rw [hfold]
        simp only [numbered, List.append_assoc, List.singleton_append, List.length_cons]
        congr 2
        omega

/-- **One segment of the second pass.** Below the root's generation it is skipped;
from there on its transactions are replayed, and the end of the active segment is
noted. -/
theorem replaySegment_segment (active : ℕ) {t : LogSegment}
    (h : ∀ f ∈ t.frames, LogSegment.FrameOk t.number f)
    (hheader : ∀ f ∈ t.frames.head?, f.kind = 1)
    (htorn : TornLog.Torn Frame.format Frame.Valid t.torn)
    (hactive : t.frames ≠ [] → t.number ≤ active)
    (hsealed : t.frames ≠ [] → t.number ≠ active → t.torn = [])
    (htx : (Log.since [t] root.generation).transactions = txFrames n ps) (hroot : root.lsn ≤ n)
    (hmax : n + ps.length ≤ maxU64) (s : Replay E) (hlsn : s.lsn = n)
    (hd : S.Denotes s.view st) (hrun : S.run st n ps = some st') :
    ∃ s', replaySegment root active s t.segment = .ok s' ∧ s'.lsn = n + ps.length ∧
      S.Denotes s'.view st' ∧ s'.replayed = s.replayed ++ numbered n ps ∧
      s'.activeEnd = if t.number = active ∧ t.frames ≠ [] ∧ root.generation ≤ t.number
        then (frameBytes t.frames).length else s.activeEnd := by
  have hskip : ps = [] → ∃ s', .ok s = (.ok s' : Result (Replay E)) ∧ s'.lsn = n + ps.length ∧
      S.Denotes s'.view st' ∧ s'.replayed = s.replayed ++ numbered n ps ∧
      s'.activeEnd = s.activeEnd := by
    rintro rfl
    obtain rfl : st = st' := by simpa [Semantics.run] using hrun
    exact ⟨s, rfl, by simpa using hlsn, hd, by simp [numbered], rfl⟩
  by_cases hlt : t.number < root.generation
  · have hps : ps = [] := by
      have := congrArg List.length htx
      simpa [Log.since, Log.transactions, not_le.mpr hlt] using this.symm
    have hnot : ¬ (t.number = active ∧ t.frames ≠ [] ∧ root.generation ≤ t.number) := by omega
    rw [replaySegment, if_pos (Or.inl (by exact hlt)), if_neg hnot]
    exact hskip hps
  have hge : root.generation ≤ t.number := by omega
  have htx' : LogSegment.txsOf t.frames = txFrames n ps := by
    simpa [Log.since, Log.transactions, LogSegment.transactions, hge] using htx
  cases hfs : t.frames with
  | nil =>
    have hps : ps = [] := by
      have := congrArg List.length htx'
      simpa [hfs, LogSegment.txsOf] using this.symm
    have hread : Frame.read t.segment.bytes = .ok none := by
      rw [LogSegment.segment_bytes, hfs]
      exact htorn.read Frame.lawful
    obtain ⟨s', hs', hrest⟩ := hskip hps
    refine ⟨s', ?_, ?_⟩
    · rw [replaySegment]
      split
      · exact hs'
      · rw [hread]
        exact hs'
    · simpa using hrest
  | cons f fs =>
    have hne : t.frames ≠ [] := by simp [hfs]
    rw [hfs] at h hheader htx'
    have hk : f.kind = 1 := hheader f (by simp)
    have hvalid := (h f List.mem_cons_self).valid
    have hrest : ∀ g ∈ fs, LogSegment.FrameOk t.number g :=
      fun g hg => h g (List.mem_cons_of_mem f hg)
    have hread : Frame.read t.segment.bytes = .ok (some (f, frameBytes fs ++ t.torn)) := by
      have : t.segment.bytes = f.bytes ++ (frameBytes fs ++ t.torn) := by
        simp [hfs]
      rw [this]
      exact Frame.read_bytes hvalid _
    have htxs : LogSegment.txsOf fs = txFrames n ps := by
      simpa [LogSegment.txsOf, hk] using htx'
    obtain ⟨view, walBytes, hfold, hd'⟩ := replayRecords_frames (S := S) hrest htxs hroot hmax
      { s with completeEnd := 40 + f.payload.length } hlsn hd hrun
    have hend : 40 + f.payload.length + (frameBytes fs).length = (frameBytes t.frames).length := by
      rw [hfs, frameBytes_cons, List.length_append, Frame.length_bytes]
    have hrange : ¬ (t.segment.number < root.generation ∨ active < t.segment.number) := by
      have := hactive hne
      rw [LogSegment.segment_number]
      omega
    rw [replaySegment, if_neg hrange, hread, ok_bind]
    simp only [hk, ne_eq, not_true_eq_false, if_false,
      readRecords_frames _ _ (fun g hg => (hrest g hg).valid) htorn, hfold, ok_bind, hend]
    by_cases hact : t.number = active
    · have hact' : t.segment.number = active := hact
      simp only [hact', not_true_eq_false, false_and, if_false, if_true]
      refine ⟨_, rfl, rfl, hd', rfl, ?_⟩
      rw [if_pos ⟨hact, by simp, hge⟩, hfs]
    · have hact' : ¬ t.segment.number = active := hact
      have hlen : (frameBytes t.frames).length = t.segment.bytes.length := by
        simp [hsealed hne hact]
      simp only [hact', hlen, not_true_eq_false, and_false, if_false]
      refine ⟨_, rfl, rfl, hd', rfl, ?_⟩
      rw [if_neg (fun h => hact h.1)]

/-- **The second pass** replays the transactions of the segments from the root's
generation on, and ends at the last complete frame of the active one. -/
theorem replay_segments (active : ℕ) {P : Log}
    (hasc : P.Pairwise fun s t => s.number < t.number)
    (h : ∀ s ∈ P, ∀ f ∈ s.frames, LogSegment.FrameOk s.number f)
    (hheader : ∀ s ∈ P, ∀ f ∈ s.frames.head?, f.kind = 1)
    (htorn : ∀ s ∈ P, TornLog.Torn Frame.format Frame.Valid s.torn)
    (hactive : ∀ s ∈ P, s.frames ≠ [] → s.number ≤ active)
    (hsealed : ∀ s ∈ P, s.frames ≠ [] → s.number ≠ active → s.torn = [])
    (htx : (P.since root.generation).transactions = txFrames n ps) (hroot : root.lsn ≤ n)
    (hmax : n + ps.length ≤ maxU64) (s : Replay E) (hlsn : s.lsn = n)
    (hd : S.Denotes s.view st) (hrun : S.run st n ps = some st') :
    ∃ s', P.segments.foldlM (replaySegment root active) s = .ok s' ∧ s'.lsn = n + ps.length ∧
      S.Denotes s'.view st' ∧ s'.replayed = s.replayed ++ numbered n ps ∧
      ((∀ a ∈ P, a.number ≠ active) → s'.activeEnd = s.activeEnd) ∧
      ∀ a ∈ P, a.number = active → a.frames ≠ [] → root.generation ≤ active →
        s'.activeEnd = (frameBytes a.frames).length := by
  induction P generalizing n ps st s with
  | nil =>
    have hps : ps = [] := by
      have := congrArg List.length htx
      simpa [Log.since, Log.transactions] using this.symm
    subst hps
    obtain rfl : st = st' := by simpa [Semantics.run] using hrun
    exact ⟨s, rfl, by simpa using hlsn, hd, by simp [numbered], fun _ => rfl, by simp⟩
  | cons t P ih =>
    rw [List.pairwise_cons] at hasc
    have htx' : (Log.since [t] root.generation).transactions ++
        (Log.since P root.generation).transactions = txFrames n ps := by
      rw [← htx, ← Log.transactions_append, Log.since, Log.since, Log.since, ← List.filter_append]
      rfl
    obtain ⟨ps₁, ps₂, rfl, htx₁, htx₂⟩ := txFrames_eq_append htx'.symm
    rw [Semantics.run_append] at hrun
    obtain ⟨mid, hrun₁, hrun₂⟩ := Option.bind_eq_some_iff.mp hrun
    rw [List.length_append] at hmax
    have ht : t ∈ t :: P := List.mem_cons_self
    have hP : ∀ {u}, u ∈ P → u ∈ t :: P := List.mem_cons_of_mem t
    obtain ⟨s₁, hs₁, hlsn₁, hd₁, hrep₁, hend₁⟩ := replaySegment_segment (S := S) active
      (h t ht) (hheader t ht) (htorn t ht) (hactive t ht) (hsealed t ht) htx₁ hroot (by omega) s
      hlsn hd hrun₁
    obtain ⟨s₂, hs₂, hlsn₂, hd₂, hrep₂, hkeep₂, hend₂⟩ := ih hasc.2 (fun u hu => h u (hP hu))
      (fun u hu => hheader u (hP hu)) (fun u hu => htorn u (hP hu))
      (fun u hu => hactive u (hP hu)) (fun u hu => hsealed u (hP hu)) htx₂ (by omega) (by omega)
      s₁ hlsn₁ hd₁ hrun₂
    refine ⟨s₂, ?_, ?_, hd₂, ?_, fun hne => ?_, fun a ha hnum hne hle => ?_⟩
    · rw [Log.segments, List.map_cons, List.foldlM_cons, hs₁, ok_bind]
      exact hs₂
    · rw [hlsn₂, List.length_append, Nat.add_assoc]
    · rw [hrep₂, hrep₁, numbered_append, List.append_assoc]
    · rw [hkeep₂ fun a ha => hne a (hP ha), hend₁, if_neg fun hc => hne t ht hc.1]
    · rcases List.mem_cons.mp ha with rfl | ha
      · rw [hkeep₂ fun b hb hnum' => (hasc.1 b hb).ne (hnum.trans hnum'.symm), hend₁,
          if_pos ⟨hnum, hne, hnum ▸ hle⟩]
      · exact hend₂ a ha hnum hne hle

end Replay

/-! ### The whole of it -/

/-- **A directory that holds a sound log opens.** Let the newest root among the
segments that are left have its files, and let no segment from its generation on be
missing: then that root is selected, the transactions behind it are replayed, and
the view denotes what the whole timeline denotes. -/
theorem open_sound {dir : Directory} {P L : Log} {timeline : List Bytes} {root : Root}
    {a : LogSegment} {st st' : S.State} (hcontrol : dir.control = controlFormat)
    (hdir : dir.segments = P.segments) (hL : L.Sound timeline) (hsub : P.Sublist L)
    (hroot : root ∈ P.roots) (hkeep : ∀ s ∈ L, root.generation ≤ s.number → s ∈ P)
    (hnewest : ∀ r ∈ P.roots, r.generation ≤ root.generation)
    (hverify : verifyFiles dir.tables root.files = .ok ())
    (hactive : P.headed.getLast? = some a)
    (hload : S.Denotes (E.load root) st)
    (hrun : S.run st root.lsn (timeline.drop root.lsn) = some st')
    (hmax : timeline.length ≤ maxU64) :
    ∃ o last, openWithOptions E dir = .ok o ∧ o.root = root ∧ o.active = a.number ∧
      o.lsn = timeline.length ∧ S.Denotes o.view st' ∧
      o.replayed = numbered root.lsn (timeline.drop root.lsn) ∧
      o.dir = dir.modify a.number (Segment.setLen (frameBytes a.frames).length) ∧
      P.getLast? = some last ∧
      o.nextGeneration = max (dir.catalogs.getLast?.elim 1 (saturatingAdd · 1))
        (saturatingAdd last.number 1) := by
  have hmem {s} (hs : s ∈ P) : s ∈ L := hsub.subset hs
  have hroots : ∀ {r}, r ∈ P.roots → r ∈ L.roots := fun hr => by
    obtain ⟨s, hs, hf⟩ := Log.mem_roots.mp hr
    exact Log.mem_roots.mpr ⟨s, hmem hs, hf⟩
  have hasc : P.Pairwise fun s t => s.number < t.number := hL.ascending.sublist hsub
  obtain ⟨haP, hane, hale⟩ := Log.number_le_of_getLast? hasc hactive
  obtain ⟨last, hlast⟩ : ∃ last, P.getLast? = some last :=
    ⟨_, List.getLast?_eq_some_getLast (List.ne_nil_of_mem haP)⟩
  obtain ⟨first, hsurvey⟩ := survey_segments (fun s hs => hL.frames s (hmem hs))
    (fun s hs => hL.header s (hmem hs)) fun s hs => hL.torn s (hmem hs)
  have hselect := newestRoot_eq hroot hnewest
    (fun r hr hg => hL.unique r (hroots hr) root (hroots hroot) hg) hverify
  have hgen : root.generation ≤ a.number := by
    obtain ⟨s, hs, f, hf, hfr⟩ := Log.mem_roots.mp hroot
    have hle := ((hL.frames s (hmem hs) f hf).frameRoot hfr).2.2
    exact hle.trans (hale s hs (List.ne_nil_of_mem hf))
  have hlsn := hL.lsn_le (hroots hroot)
  have htx : (P.since root.generation).transactions =
      txFrames root.lsn (timeline.drop root.lsn) := by
    rw [Log.since_eq_of_sublist hL.ascending hsub hkeep]
    exact hL.transactions_since (hroots hroot)
  have hlen : root.lsn + (timeline.drop root.lsn).length = timeline.length := by
    rw [List.length_drop]
    omega
  obtain ⟨s', hfold, hlsn', hd, hrep, -, hend⟩ := replay_segments (S := S) a.number hasc
    (fun s hs => hL.frames s (hmem hs)) (fun s hs => hL.header s (hmem hs))
    (fun s hs => hL.torn s (hmem hs)) hale
    (fun s hs hne hna => hL.sealed s (hmem hs) a (hmem haP)
      (lt_of_le_of_ne (hale s hs hne) hna) hne hane)
    htx le_rfl (by omega)
    { view := E.load root, lsn := root.lsn, walBytes := 0, completeEnd := 0, activeEnd := 0,
      replayed := [] } rfl hload hrun
  refine ⟨{ dir := dir.modify a.number (Segment.setLen s'.activeEnd), root, active := a.number,
            nextGeneration := max (dir.catalogs.getLast?.elim 1 (saturatingAdd · 1))
              (saturatingAdd last.number 1)
            view := s'.view, lsn := s'.lsn, walBytes := s'.walBytes, replayed := s'.replayed },
    last, ?_, rfl, rfl, hlsn'.trans hlen, hd, by simpa using hrep, ?_, hlast, rfl⟩
  · have hlast' : dir.segments.getLast? = some last.segment := by
      rw [hdir, Log.segments, List.getLast?_map, hlast, Option.map_some]
    rw [openWithOptions, if_neg (not_not.mpr hcontrol), hlast']
    simp only [hdir, hsurvey, ok_bind, hselect, hactive, Option.map_some, hfold]
    rfl
  · rw [hend a haP rfl hane hgen]

end EveDB
