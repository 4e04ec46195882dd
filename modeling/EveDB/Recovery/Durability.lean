import EveDB.Recovery.Safety

/-!
# What an acknowledged commit rests on

An acknowledged commit should rest on synced bytes only: recovery of its sequence
needs the root of the database and the transaction frames behind it, and each of these
should lie within the synced bytes of its segment (`RestsOnSynced`).

It does in every run whose steps meet `SyncedStep`. Not every run is of this kind.
`openWithOptions` syncs the active segment only when it has to truncate it, so a
complete frame whose sync failed, or never came, is adopted as it is; when a capture
then rotates to a new segment, nothing ever syncs it, while later commits build on it.
-/

namespace EveDB

variable {E : Engine} {S : Semantics E}

/-- **An acknowledged commit rests on synced bytes**: so does the root of the open
database, and every transaction between that root and an acknowledged one. -/
def RestsOnSynced (s : System S) : Prop :=
  ∃ root, (∃ segment ∈ s.dir.segments, ∃ f ∈ segment.durableFrames,
      LogSegment.frameRoot f = some root) ∧
    (∀ h, s.handle = some h → h.root = root) ∧
    ∀ x ∈ s.acked, ∀ n, root.lsn < n → n ≤ x.1 →
      ∃ segment ∈ s.dir.segments, root.generation ≤ segment.number ∧
        ∃ p, ⟨2, n, p⟩ ∈ segment.durableFrames ∧ (n = x.1 → p = x.2)

/-- A segment in front of another one with frames is synced to its end. -/
def SealedOnSynced (dir : Directory) : Prop :=
  ∀ segment ∈ dir.segments, ∀ next ∈ dir.segments, segment.number < next.number →
    segment.frames ≠ [] → next.frames ≠ [] → segment.durable = segment.bytes.length

section Log

variable {L : Log} {timeline : List Bytes}

theorem getElem?_txFrames (n i : ℕ) (ps : List Bytes) :
    (txFrames n ps)[i]? = ps[i]?.map fun p => ⟨2, n + i + 1, p⟩ := by
  induction ps generalizing n i with
  | nil => simp [txFrames]
  | cons p ps ih =>
    cases i with
    | zero => simp [txFrames]
    | succ i =>
      rw [txFrames, List.getElem?_cons_succ, ih, List.getElem?_cons_succ]
      congr 2
      funext p
      congr 1
      omega

/-- **A transaction in front of a synced point is in a synced frame.** -/
theorem Log.Sound.exists_synced (h : L.Sound timeline) (hsealed : L.SealedSynced) {w m i : ℕ}
    (hm : L.SyncedTo w m) (hi : i < timeline.length) (hle : i < m) :
    ∃ t ∈ L, (⟨2, i + 1, timeline[i]⟩ : Frame) ∈ t.frames.take t.synced := by
  obtain ⟨d, hd, hpos, -, hn⟩ := hm
  have hdne := h.frames_ne_nil hd hpos
  obtain ⟨front, back, hL, hfront, hback⟩ := Log.exists_split h.ascending hd
  rw [hL, Log.below_split hfront hback] at hn
  set synced := LogSegment.txsOf (d.frames.take d.synced)
  have hsplit : L.transactions = (Log.transactions front ++ synced) ++
      (LogSegment.txsOf (d.frames.drop d.synced) ++ Log.transactions back) := by
    have : d.transactions = synced ++ LogSegment.txsOf (d.frames.drop d.synced) := by
      rw [← LogSegment.txsOf_append, List.take_append_drop]
      rfl
    rw [hL, Log.transactions_append, List.append_assoc, ← List.append_assoc synced, ← this]
    rfl
  have hmem : (⟨2, i + 1, timeline[i]⟩ : Frame) ∈ Log.transactions front ++ synced := by
    have hget := getElem?_txFrames 0 i timeline
    rw [← h.transactions, hsplit, List.getElem?_append_left (by rw [List.length_append]; omega),
      List.getElem?_eq_getElem hi, Option.map_some, Nat.zero_add] at hget
    exact List.mem_of_getElem? hget
  rcases List.mem_append.mp hmem with hmem | hmem
  · obtain ⟨t, ht, hf⟩ := List.mem_flatMap.mp hmem
    have htL : t ∈ L := by rw [hL]; exact List.mem_append_left _ ht
    have hf' : (⟨2, i + 1, timeline[i]⟩ : Frame) ∈ t.frames := List.mem_of_mem_filter hf
    refine ⟨t, htL, ?_⟩
    rwa [hsealed t htL d hd (hfront t ht) (List.ne_nil_of_mem hf') hdne, List.take_length]
  · exact ⟨d, hd, List.mem_of_mem_filter hmem⟩

/-- A transaction behind a root is not in a segment below its generation. -/
theorem Log.Sound.generation_le_of_lsn_lt (h : L.Sound timeline) {r : Root} (hr : r ∈ L.roots)
    {t : LogSegment} (ht : t ∈ L) {f : Frame} (hf : f ∈ t.frames) (hkind : f.kind = 2)
    (hlt : r.lsn < f.lsn) : r.generation ≤ t.number := by
  by_contra hnum
  have hsplit := congrArg Log.transactions (Log.below_append_since h.ascending r.generation)
  rw [Log.transactions_append, h.transactions] at hsplit
  have hbelow : (L.below r.generation).transactions = txFrames 0 (timeline.take r.lsn) := by
    rw [← txFrames_take, ← hsplit, ← h.below r hr, List.take_left]
  have hmem : f ∈ (L.below r.generation).transactions := by
    refine List.mem_flatMap.mpr ⟨t, List.mem_filter.mpr ⟨ht, by simpa using hnum⟩, ?_⟩
    exact List.mem_filter.mpr ⟨hf, by simpa using hkind⟩
  rw [hbelow] at hmem
  have := (mem_txFrames hmem).2.2.1
  rw [List.length_take] at this
  omega

end Log

namespace Inv

variable {s : System S} {L P : Log} {timeline : List Bytes} {floor : ℕ}

theorem frame_valid (hinv : Inv True s L P timeline floor) {t : LogSegment} (ht : t ∈ L) :
    ∀ f ∈ t.frames, f.Valid :=
  fun f hf => (hinv.stored.sound.frames t ht f hf).valid

/-- The invariant and its durability clauses put everything acknowledged on synced bytes. -/
theorem restsOnSynced (hinv : Inv True s L P timeline floor) : RestsOnSynced s := by
  have hstored := hinv.stored
  have hsound := hstored.sound
  have hPL : ∀ {t}, t ∈ P → t ∈ L := fun ht => hstored.sublist.subset ht
  obtain ⟨root, hpub, hfloor, hroot⟩ : ∃ root, P.Published root ∧ floor ≤ root.generation ∧
      ∀ h, s.handle = some h → h.root = root := by
    cases hh : s.handle with
    | none =>
      obtain ⟨root, hpub, hfloor⟩ := hstored.anchor
      exact ⟨root, hpub, hfloor, fun h heq => by cases heq⟩
    | some h =>
      refine ⟨h.root, hinv.root_synced trivial h hh, (hinv.handle h hh).floor_le, fun h' heq => ?_⟩
      cases heq
      rfl
  refine ⟨root, ?_, hroot, fun x hx n hlt hle => ?_⟩
  · obtain ⟨t, ht, f, hf, hfr⟩ := hpub
    refine ⟨t.segment, ?_, f, ?_, hfr⟩
    · rw [hstored.segments]
      exact List.mem_map_of_mem ht
    · rwa [LogSegment.durableFrames_segment (hinv.frame_valid (hPL ht))]
  · obtain ⟨m, hm, hacked⟩ := hinv.acked_synced
    obtain ⟨k, hk, rfl⟩ := mem_numbered.mp (hinv.acked hx)
    have hm' := hacked _ hx
    simp only [Nat.zero_add] at hle hm'
    obtain ⟨i, rfl⟩ : ∃ i, n = i + 1 := ⟨n - 1, by omega⟩
    obtain ⟨t, ht, hmem⟩ := hsound.exists_synced (hinv.sealed_synced trivial) hm
      (by omega : i < timeline.length) (by omega)
    have hrootL : root ∈ L.roots := by
      obtain ⟨t, ht, f, hf, hfr⟩ := hpub
      exact Log.mem_roots.mpr ⟨t, hPL ht, f, List.mem_of_mem_take hf, hfr⟩
    have hgen := hsound.generation_le_of_lsn_lt hrootL ht (List.mem_of_mem_take hmem) rfl hlt
    refine ⟨t.segment, ?_, hgen, timeline[i], ?_, fun heq => ?_⟩
    · rw [hstored.segments]
      exact List.mem_map_of_mem (hstored.keep t ht (hfloor.trans hgen))
    · rwa [LogSegment.durableFrames_segment (hinv.frame_valid ht)]
    · obtain rfl : i = k := by simpa using heq
      rfl

theorem sealedOnSynced (hinv : Inv True s L P timeline floor) : SealedOnSynced s.dir := by
  have hsound := hinv.stored.sound
  have hPL : ∀ {t}, t ∈ P → t ∈ L := fun ht => hinv.stored.sublist.subset ht
  intro segment hs next hn hlt hsf hnf
  rw [hinv.stored.segments] at hs hn
  obtain ⟨t, ht, rfl⟩ := List.mem_map.mp hs
  obtain ⟨u, hu, rfl⟩ := List.mem_map.mp hn
  rw [LogSegment.frames_segment (hinv.frame_valid (hPL ht)) (hsound.torn t (hPL ht))] at hsf
  rw [LogSegment.frames_segment (hinv.frame_valid (hPL hu)) (hsound.torn u (hPL hu))] at hnf
  have htorn := hsound.sealed t (hPL ht) u (hPL hu) hlt hsf hnf
  have hsynced := hinv.sealed_synced trivial t (hPL ht) u (hPL hu) hlt hsf hnf
  simp [hsynced, htorn]

end Inv

/-- **Acknowledged commits rest on synced bytes** in every run in which no capture seals
an unsynced segment and no reopening finds its newest root unsynced. -/
theorem acknowledged_restsOnSynced {limits : WalLimits} {s : System S}
    (hs : Reachable S limits SyncedStep s) : RestsOnSynced s ∧ SealedOnSynced s.dir := by
  obtain ⟨L, P, timeline, floor, hinv⟩ :=
    Inv.reachable True (fun _ _ _ hcond => hcond) hs
  exact ⟨hinv.restsOnSynced, hinv.sealedOnSynced⟩

/-! ### Runs of both kinds -/

section Run

theorem syncedStep_initial : SyncedStep (System.initial sequenceSemantics) .reopen := by
  have hvalid : ∀ f ∈ [rootFrame Root.empty], f.Valid := fun f hf =>
    (Log.sound_initial.frames _ (List.mem_singleton_self _) f hf).valid
  have hdecode := LogSegment.frameRoot_rootFrame Root.decode_encode_empty
  have hmem : ∀ segment ∈ (System.initial sequenceSemantics).dir.segments,
      segment = (LogSegment.mk 0 [rootFrame Root.empty] [] 1).segment := by
    intro segment hs
    rw [System.initial, ← Log.segments_initial] at hs
    exact List.mem_singleton.mp hs
  have hframes : (LogSegment.mk 0 [rootFrame Root.empty] [] 1).segment.frames =
      [rootFrame Root.empty] := LogSegment.frames_segment hvalid TornLog.torn_nil
  refine ⟨(LogSegment.mk 0 [rootFrame Root.empty] [] 1).segment, ?_, rootFrame Root.empty, ?_,
    Root.empty, hdecode, fun segment hs f hf r hfr => ?_⟩
  · rw [System.initial, ← Log.segments_initial]
    exact List.mem_singleton_self _
  · rw [hframes, LogSegment.durableFrames_segment hvalid]
    split <;> simp
  · rw [hmem segment hs, hframes, List.mem_singleton] at hf
    rw [hf, hdecode] at hfr
    rw [Option.some.inj hfr]

/-- Two commits are acknowledged with a rotation of the log and an installation between them, and
the power fails. -/
theorem acknowledged_restsOnSynced_run : ∃ s : System sequenceSemantics,
    s.acked = [(1, [7]), (2, [8])] ∧ s.dir.segments.length = 2 ∧ s.handle = none ∧
      RestsOnSynced s ∧ SealedOnSynced s.dir := by
  have h₀ : Reachable sequenceSemantics ⟨maxU64⟩ SyncedStep _ := Reachable.initial
  obtain ⟨walBytes, h₁⟩ := reopen_oneSegment [] 1 (by simp) (by decide) le_rfl h₀
    oneSegmentDirectory_nil.symm rfl syncedStep_initial
  have h₂ := h₁.step (show SyncedStep _ (.commit [[7]] .ok) from trivial)
    (Step.commit _ _ [[7]] (1 : ℕ) .ok rfl rfl rfl (by simp [maxFrame])
      (show 0 + 1 ≤ maxU64 by decide) (min_le_right _ _))
  -- the segment that is sealed has been synced by the commit
  have h₃ := h₂.step (a := .capture .ok) (by
      rintro h ⟨⟩ segment hsegment -
      rw [List.mem_singleton.mp hsegment]
      rfl)
    (Step.capture _ _ .ok rfl rfl rfl rfl (show 1 + 1 ≤ maxU64 by decide))
  have h₄ := h₃.step (show SyncedStep _ (.build _) from trivial)
    (Step.build _ _ _ (historyRoot 1 1 []) rfl rfl rfl rfl rfl
      ((valid_historyRoot (by decide) (by decide) (Or.inl rfl)).decode_encode (by decide +kernel))
      (by decide +kernel) (fun f hf => absurd hf List.not_mem_nil) rfl)
  have h₅ := h₄.step (show SyncedStep _ (.install .ok) from trivial)
    (Step.install _ _ _ _ .ok rfl rfl rfl rfl)
  have h₆ := h₅.step (show SyncedStep _ (.commit [[8]] .ok) from trivial)
    (Step.commit _ _ [[8]] (2 : ℕ) .ok rfl rfl rfl (by simp [maxFrame])
      (show 1 + 1 ≤ maxU64 by decide) (min_le_right _ _))
  have h₇ := h₆.step (a := .crash _) trivial (Step.crash_syncedBytes _ _)
  exact ⟨_, rfl, rfl, rfl, acknowledged_restsOnSynced h₇⟩

/-- A transaction is written and its sync fails. -/
theorem append_unsynced (p : Bytes) :
    initializeDirectory.modify 0 (Segment.append
      (.error (frameBytes (txFrames 0 [p])).length false) (frameBytes (txFrames 0 [p]))) =
      oneSegmentDirectory [p] 1 := by
  rw [← oneSegmentDirectory_nil]
  simp [Directory.modify, oneSegmentDirectory, oneSegment, Log.segments, LogSegment.segment,
    Segment.append, WriteOutcome.written, WriteOutcome.synced, txFrames]

/-- A process dies and all that is written stays. -/
theorem cut_oneSegment (ps : List Bytes) (synced : ℕ) :
    (oneSegmentDirectory ps synced).modify 0
      (Segment.cut (frameBytes (rootFrame Root.empty :: txFrames 0 ps)).length) =
      oneSegmentDirectory ps synced := by
  simp [Directory.modify, oneSegmentDirectory, oneSegment, Log.segments, LogSegment.segment,
    Segment.cut]

/-- A new segment is added behind one, and a transaction is written to it and synced. -/
theorem rotate_oneSegment (p q : Bytes) (catalogs : List ℕ) :
    (({ oneSegmentDirectory [p] 1 with catalogs }.addSegment
        (Segment.append .ok (rootFrame Root.empty).bytes ⟨1, [], 0⟩)).modify 1
      (Segment.append .ok (frameBytes (txFrames 1 [q])))).segments =
      Log.segments [⟨0, rootFrame Root.empty :: txFrames 0 [p], [], 1⟩,
        ⟨1, rootFrame Root.empty :: txFrames 1 [q], [], 2⟩] := by
  simp [Directory.modify, Directory.addSegment, oneSegmentDirectory, oneSegment, Log.segments,
    LogSegment.segment, Segment.append, WriteOutcome.written, WriteOutcome.synced, txFrames]

/-- A transaction is written and not synced, the process dies, the directory is reopened
and captured, and a commit is acknowledged in the new segment. -/
theorem exists_unsynced_run : ∃ s : System sequenceSemantics,
    Reachable sequenceSemantics ⟨maxU64⟩ (fun _ _ => True) s ∧ s.acked = [(2, [8])] ∧
    (∃ h, s.handle = some h ∧ h.root = Root.empty) ∧
    s.dir.segments = Log.segments [⟨0, rootFrame Root.empty :: txFrames 0 [[7]], [], 1⟩,
      ⟨1, rootFrame Root.empty :: txFrames 1 [[8]], [], 2⟩] := by
  have h₀ : Reachable sequenceSemantics ⟨maxU64⟩ (fun _ _ => True) _ := Reachable.initial
  obtain ⟨w₁, h₁⟩ := reopen_oneSegment [] 1 (by simp) (by decide) le_rfl h₀
    oneSegmentDirectory_nil.symm rfl trivial
  have h₂ := h₁.step trivial (Step.commit _ _ [[7]] (1 : ℕ)
    (.error (frameBytes (txFrames 0 [[7]])).length false) rfl rfl rfl (by simp [maxFrame])
    (show 0 + 1 ≤ maxU64 by decide) (min_le_right _ _))
  have hdir : (System.initial sequenceSemantics).dir.modify 0 (Segment.append
      (.error (frameBytes (txFrames 0 [[7]])).length false) (frameBytes (txFrames 0 [[7]]))) =
      oneSegmentDirectory [[7]] 1 := append_unsynced [7]
  simp only [List.length_nil, hdir] at h₂
  have h₃ := h₂.step trivial (Step.crash _
    (frameBytes (rootFrame Root.empty :: txFrames 0 [[7]])).length fun segment hs _ => by
      rw [List.mem_singleton.mp hs, LogSegment.segment_durable]
      simp)
  simp only [cut_oneSegment] at h₃
  obtain ⟨w₂, h₄⟩ := reopen_oneSegment [[7]] 1 (by simp [maxFrame])
    (show 1 ≤ maxU64 by decide) (by simp) h₃ rfl rfl trivial
  have h₅ := h₄.step trivial (Step.capture _ _ .ok rfl rfl rfl rfl (show 1 + 1 ≤ maxU64 by decide))
  have h₆ := h₅.step trivial (Step.commit _ _ [[8]] (2 : ℕ) .ok rfl rfl rfl (by simp [maxFrame])
    (show 1 + 1 ≤ maxU64 by decide) (min_le_right _ _))
  exact ⟨_, h₆, rfl, ⟨_, rfl, rfl⟩, rotate_oneSegment [7] [8] _⟩

/-- **Not every run keeps acknowledged commits on synced bytes.** -/
theorem exists_not_restsOnSynced : ∃ s : System sequenceSemantics,
    Reachable sequenceSemantics ⟨maxU64⟩ (fun _ _ => True) s ∧ ¬ RestsOnSynced s := by
  obtain ⟨s, hs, hacked, ⟨h, hh, hroot⟩, hsegments⟩ := exists_unsynced_run
  have hheader : (rootFrame Root.empty).Valid :=
    (Log.sound_initial.frames _ (List.mem_singleton_self _) _ (List.mem_singleton_self _)).valid
  have hvalid : ∀ n p, n < 2 → p.length ≤ maxFrame →
      ∀ f ∈ rootFrame Root.empty :: txFrames n [p], f.Valid := by
    intro n p hn hp f hf
    rcases List.mem_cons.mp hf with rfl | hf
    · exact hheader
    · rw [List.mem_singleton.mp hf]
      have hlsn : n + 1 < 2 ^ 64 := by omega
      exact ⟨show 2 < 2 ^ 16 by decide, hlsn, hp⟩
  refine ⟨s, hs, ?_⟩
  rintro ⟨root, -, hopen, hrests⟩
  obtain rfl : root = Root.empty := (hopen h hh).symm.trans hroot
  obtain ⟨segment, hseg, -, p, hmem, -⟩ := hrests (2, [8]) (by simp [hacked]) 1 Nat.one_pos
    (by decide)
  rw [hsegments] at hseg
  -- The first segment has only its header synced, the second holds the second transaction.
  rcases List.mem_cons.mp hseg with rfl | hseg
  · rw [LogSegment.durableFrames_segment (hvalid 0 [7] (by decide) (by decide))] at hmem
    simp [rootFrame] at hmem
  · rw [List.mem_singleton.mp hseg,
      LogSegment.durableFrames_segment (hvalid 1 [8] (by decide) (by decide))] at hmem
    simp [rootFrame, txFrames] at hmem

end Run

end EveDB
