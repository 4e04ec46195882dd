import EveDB.Recovery.Preservation

/-!
# Recovery loses nothing acknowledged

The directory opens in every state a run reaches, whatever was cut off it by a crash.
What it holds then is a list of transactions: each of them was submitted with the
sequence it has, everything acknowledged is among them, the selected root contains a
prefix of them, and exactly the others are replayed.
-/

namespace EveDB

open Std

/-- The sequences of transactions are consecutive. -/
theorem map_fst_numbered (n : ℕ) (ps : List Bytes) :
    (numbered n ps).map Prod.fst = List.range' (n + 1) ps.length := by
  induction ps generalizing n with
  | nil => rfl
  | cons p ps ih => rw [numbered, List.map_cons, ih, List.length_cons, List.range'_succ]

theorem map_snd_numbered (n : ℕ) (ps : List Bytes) : (numbered n ps).map Prod.snd = ps := by
  induction ps generalizing n with
  | nil => rfl
  | cons p ps ih => rw [numbered, List.map_cons, ih]

variable {E : Engine} {S : Semantics E}

/-- **Recovery is complete.** In every state of every run the directory opens, at a
sequence not below any acknowledged one. The transactions replayed on the selected root
are the ones behind it, each once and in order; all of them were submitted, and every
acknowledged transaction is among those the recovered view contains. -/
theorem recovery_complete {limits : WalLimits} {s : System S}
    (hs : Reachable S limits (fun _ _ => True) s) :
    ∃ o txs state, openWithOptions E s.dir = .ok o ∧
      o.lsn = txs.length ∧ o.root.lsn ≤ o.lsn ∧
      o.replayed = numbered o.root.lsn (txs.drop o.root.lsn) ∧
      o.replayed.map Prod.fst = List.range' (o.root.lsn + 1) (o.lsn - o.root.lsn) ∧
      (∀ x ∈ numbered 0 txs, x ∈ s.submitted) ∧
      (∀ x ∈ s.acked, x.1 ≤ o.lsn ∧ x ∈ numbered 0 txs) ∧
      S.run S.initial 0 txs = some state ∧ S.Denotes o.view state := by
  obtain ⟨L, P, timeline, floor, hinv⟩ := Inv.reachable False (fun h => h.elim) hs
  obtain ⟨o, a, state, hopen, hroot, -, -, -, -, hlsn, hrun, hview, hreplayed, -⟩ :=
    hinv.exists_open
  have hle : o.root.lsn ≤ timeline.length := by
    obtain ⟨t, ht, hf⟩ := Log.mem_roots.mp hroot
    exact hinv.stored.sound.lsn_le
      (Log.mem_roots.mpr ⟨t, hinv.stored.sublist.subset ht, hf⟩)
  refine ⟨o, timeline, state, hopen, hlsn, hlsn ▸ hle, hreplayed, ?_, hinv.submitted,
    fun x hx => ?_, hrun, hview⟩
  · rw [hreplayed, map_fst_numbered, List.length_drop, hlsn]
  · have hmem := hinv.acked hx
    obtain ⟨i, hi, rfl⟩ := mem_numbered.mp hmem
    exact ⟨by simp only; omega, hmem⟩

/-! ### A log of one segment -/

/-- A log of one segment, with `ps` behind the first root. -/
def oneSegment (ps : List Bytes) (synced : ℕ) : Log :=
  [⟨0, rootFrame Root.empty :: txFrames 0 ps, [], synced⟩]

/-- A directory that holds it. -/
def oneSegmentDirectory (ps : List Bytes) (synced : ℕ) : Directory :=
  { initializeDirectory with segments := (oneSegment ps synced).segments }

theorem oneSegmentDirectory_nil : oneSegmentDirectory [] 1 = initializeDirectory := by
  have : (oneSegment [] 1).segments = initializeDirectory.segments := Log.segments_initial
  rw [oneSegmentDirectory, this]

theorem sound_oneSegment {ps : List Bytes} {synced : ℕ} (hsize : ∀ p ∈ ps, p.length ≤ maxFrame)
    (hlen : ps.length ≤ maxU64) (hsynced : synced ≤ ps.length + 1) :
    (oneSegment ps synced).Sound ps := by
  refine Log.Sound.replace
    (show Log.Sound ([] ++ ⟨0, [rootFrame Root.empty], [], 1⟩ :: []) [] from Log.sound_initial)
    (by simp) rfl
    (fun f hf => ?_) (by simp [rootFrame]) TornLog.torn_nil (by simpa using hsynced) (by simp) ?_
    fun r hr => Or.inl ?_
  · rcases List.mem_cons.mp hf with rfl | hf
    · exact Log.sound_initial.frames _ (List.mem_singleton_self _) _ (List.mem_singleton_self _)
    · obtain ⟨hk, -, hle, hp⟩ := mem_txFrames hf
      have : maxU64 < 2 ^ 64 := by decide
      exact ⟨⟨by rw [hk]; decide, by omega, hsize _ hp⟩, Or.inr hk,
        fun hk' => absurd hk' (by omega)⟩
  · simpa [LogSegment.transactions, LogSegment.txsOf, rootFrame, Log.transactions] using
      fun f hf => (mem_txFrames hf).1
  · rw [LogSegment.roots, List.filterMap_cons, LogSegment.filterMap_txFrames] at hr
    exact hr

/-- It opens, and nothing of it is written. -/
theorem open_oneSegment {ps : List Bytes} {synced : ℕ} (hsize : ∀ p ∈ ps, p.length ≤ maxFrame)
    (hlen : ps.length ≤ maxU64) (hsynced : synced ≤ ps.length + 1) {state : S.State}
    (hrun : S.run S.initial 0 ps = some state) :
    ∃ o : Opened E, openWithOptions E (oneSegmentDirectory ps synced) = .ok o ∧
      o.dir = oneSegmentDirectory ps synced ∧ o.root = Root.empty ∧ o.active = 0 ∧
      o.lsn = ps.length ∧ S.Denotes o.view state ∧ o.replayed = numbered 0 ps ∧
      o.nextGeneration = 1 := by
  have hsound := sound_oneSegment hsize hlen hsynced
  have hroots : ∀ r, r ∈ (oneSegment ps synced).roots ↔ r = Root.empty := by
    intro r
    simp [oneSegment, Log.roots, LogSegment.roots,
      LogSegment.frameRoot_rootFrame Root.decode_encode_empty]
  obtain ⟨o, last, hopen, hroot, hactive, hlsn, hview, hreplayed, hdir, hlast, hnext⟩ :=
    open_sound (S := S)
      (show (oneSegmentDirectory ps synced).control = controlFormat from rfl) rfl hsound
      (List.Sublist.refl _) ((hroots _).mpr rfl) (fun t ht _ => ht)
      (fun r hr => by rw [(hroots r).mp hr]) rfl
      (a := ⟨0, rootFrame Root.empty :: txFrames 0 ps, [], synced⟩) rfl
      S.denotes_empty hrun hlen
  refine ⟨o, hopen, ?_, hroot, hactive, hlsn, hview, hreplayed, ?_⟩
  · rw [hdir]
    simp [Directory.modify, oneSegmentDirectory, oneSegment, Log.segments, LogSegment.segment,
      Segment.setLen]
  · obtain rfl : last = ⟨0, rootFrame Root.empty :: txFrames 0 ps, [], synced⟩ :=
      (Option.some.inj hlast).symm
    rw [hnext]
    rfl

/-! ### A concrete engine -/

/-- The engine whose views are sequences. -/
def sequenceEngine : Engine where
  View := ℕ
  load := Root.lsn
  replay := fun _ n _ => .ok n

/-- A transaction makes its own sequence of the state. -/
def sequenceSemantics : Semantics sequenceEngine where
  State := ℕ
  initial := 0
  exec := fun _ n _ => some n
  Denotes := fun v s => v = s
  denotes_empty := rfl
  denotes_unique := fun h h' => h.symm.trans h'
  replay_denotes := fun {_ _ n _ _} _ h => ⟨n, rfl, Option.some.inj h⟩

theorem sequenceSemantics_run (n : ℕ) (ps : List Bytes) :
    sequenceSemantics.run n n ps = some (n + ps.length) := by
  induction ps generalizing n with
  | nil => rfl
  | cons p ps ih =>
    have := ih (n + 1)
    rw [Nat.add_right_comm] at this
    exact this

/-- All transactions of a log can be executed. -/
theorem sequenceSemantics_run_initial (ps : List Bytes) :
    sequenceSemantics.run sequenceSemantics.initial 0 ps = some ps.length := by
  have hrun := sequenceSemantics_run 0 ps
  rwa [Nat.zero_add] at hrun

/-! ### A run of it -/

section Run

/-- A reopening of it. -/
theorem step_oneSegment {limits : WalLimits} (ps : List Bytes) (synced : ℕ)
    (hsize : ∀ p ∈ ps, p.length ≤ maxFrame) (hlen : ps.length ≤ maxU64)
    (hsynced : synced ≤ ps.length + 1) {s : System sequenceSemantics}
    (hdir : s.dir = oneSegmentDirectory ps synced) (hh : s.handle = none) :
    ∃ walBytes, Step sequenceSemantics limits s .reopen
      { s with
        writing := 0
        handle := some
          { root := Root.empty, lsn := ps.length, active := 0, nextGeneration := 1, walBytes,
            poisoned := false, tail := false, job := none, cleanup := none, replaced := none,
            state := ps.length } } := by
  obtain ⟨o, hopen, hodir, hroot, hactive, hlsn, hview, -, hnext⟩ :=
    open_oneSegment hsize hlen hsynced (sequenceSemantics_run_initial ps)
  rw [← hdir] at hopen
  have hstep : Step sequenceSemantics limits s .reopen _ :=
    Step.reopen s o (ps.length : ℕ) hh hopen hview
  have hhandle : o.handle (S := sequenceSemantics) (ps.length : ℕ) =
      { root := Root.empty, lsn := ps.length, active := 0, nextGeneration := 1,
        walBytes := o.walBytes, poisoned := false, tail := false, job := none, cleanup := none,
        replaced := none, state := ps.length } := by
    rw [← hroot, ← hlsn, ← hactive, ← hnext]
    rfl
  rw [hodir, ← hdir, hactive, hhandle] at hstep
  exact ⟨o.walBytes, hstep⟩

/-- A run that reaches it goes on with a reopening. -/
theorem reopen_oneSegment {limits : WalLimits}
    {condition : System sequenceSemantics → Action → Prop} (ps : List Bytes) (synced : ℕ)
    (hsize : ∀ p ∈ ps, p.length ≤ maxFrame) (hlen : ps.length ≤ maxU64)
    (hsynced : synced ≤ ps.length + 1) {s : System sequenceSemantics}
    (hs : Reachable sequenceSemantics limits condition s)
    (hdir : s.dir = oneSegmentDirectory ps synced) (hh : s.handle = none)
    (hcond : condition s .reopen) :
    ∃ walBytes, Reachable sequenceSemantics limits condition
      { s with
        writing := 0
        handle := some
          { root := Root.empty, lsn := ps.length, active := 0, nextGeneration := 1, walBytes,
            poisoned := false, tail := false, job := none, cleanup := none, replaced := none,
            state := ps.length } } := by
  obtain ⟨walBytes, hstep⟩ := step_oneSegment ps synced hsize hlen hsynced hdir hh
  exact ⟨walBytes, hs.step hcond hstep⟩

/-- The table of a database in which a segment of history was written. -/
def itemTable : Table := ⟨1, "items", [⟨1, [⟨1, "name", .text, false⟩]⟩]⟩

/-- The segment. -/
def historyFile : FileInfo := ⟨1, 1, 6, 0, 40, 0⟩

/-- A root of the database, which may name the segment. -/
def historyRoot (generation lsn : ℕ) (files : List FileInfo) : Root where
  generation
  lsn
  catalog := (∅ : BTreeMap Table).insert 1 itemTable
  generations := [⟨generation, lsn⟩]
  files
  partitions := ∅
  historyGenerations := (∅ : BTreeMap ℕ).insert 1 1
  historyCompacted := true
  occupancy := ∅

theorem valid_itemTable : itemTable.Valid where
  id_ne_zero := by decide
  id_lt := by decide
  name_eq := by decide
  schemas_ne_nil := by decide
  length_lt := by decide
  version_eq := by decide
  schema_valid schema h := by
    rw [List.mem_singleton.mp h]
    exact ⟨by decide, by decide⟩

theorem getElem?_singleton {α : Type} {k k' : ℕ} {a b : α}
    (h : ((∅ : BTreeMap α).insert k a)[k']? = some b) : k = k' ∧ a = b := by
  rw [ExtTreeMap.getElem?_insert, ExtTreeMap.getElem?_empty] at h
  split at h
  · next heq => exact ⟨Nat.compare_eq_eq.mp heq, Option.some.inj h⟩
  · cases h

theorem valid_historyRoot {generation lsn : ℕ} (hgeneration : 1 ≤ generation ∧ generation ≤ 3)
    (hlsn : 1 ≤ lsn ∧ lsn ≤ 3) {files : List FileInfo}
    (hfiles : files = [] ∨ files = [historyFile]) :
    (historyRoot generation lsn files).Valid where
  generation_lt := show generation < 2 ^ 64 by omega
  lsn_lt := show lsn < 2 ^ 64 by omega
  table id t h := by
    obtain ⟨rfl, rfl⟩ := getElem?_singleton h
    exact ⟨valid_itemTable, rfl⟩
  name id t id' t' h h' _ := by
    obtain ⟨rfl, -⟩ := getElem?_singleton h
    exact (getElem?_singleton h').1
  ascending := List.pairwise_singleton _ _
  last := rfl
  length_le := show 1 ≤ maxSlots by decide
  generation_lsn g hg := by
    rw [List.mem_singleton.mp hg]
    exact show lsn < 2 ^ 64 by omega
  partition route part h := by simp [historyRoot] at h
  partition_root route part route' part' h := by simp [historyRoot] at h
  history g n h := by
    obtain ⟨rfl, rfl⟩ := getElem?_singleton h
    exact ⟨hgeneration.1, hlsn.1⟩
  file f hf := by
    rcases hfiles with rfl | rfl
    · cases hf
    · rw [List.mem_singleton.mp hf]
      exact ⟨ExtTreeMap.mem_insert_self, by decide, by decide, fun _ => ExtTreeMap.mem_insert_self,
        fun _ h => absurd h (by decide), fun h => absurd h (by decide), by decide, by decide,
        by decide, by decide⟩
  file_nodup := by
    rcases hfiles with rfl | rfl
    · exact List.nodup_nil
    · exact List.nodup_singleton _
  occupancy table slot o h := by simp [historyRoot] at h

/-- Two commits are acknowledged, the second between a capture and its installation. The checkpoint
behind them carries on a segment of history of the root that was replaced before. A third commit
fails after some bytes, and the power fails. -/
theorem recovery_complete_run : ∃ s : System sequenceSemantics, s.acked = [(1, [7]), (2, [8])] ∧
    s.submitted = [(1, [7]), (2, [8]), (3, [9])] ∧ s.handle = none ∧
    ∃ o, openWithOptions sequenceEngine s.dir = .ok o ∧ 2 ≤ o.lsn := by
  have h₀ : Reachable sequenceSemantics ⟨maxU64⟩ (fun _ _ => True) _ := Reachable.initial
  obtain ⟨walBytes, h₁⟩ := reopen_oneSegment [] 1 (by simp) (by decide) le_rfl h₀
    oneSegmentDirectory_nil.symm rfl trivial
  have h₂ := h₁.step trivial (Step.commit _ _ [[7]] (1 : ℕ) .ok rfl rfl rfl
    (by simp [maxFrame]) (show 0 + 1 ≤ maxU64 by decide) (min_le_right _ _))
  have h₃ := h₂.step trivial (Step.capture _ _ .ok rfl rfl rfl rfl (show 1 + 1 ≤ maxU64 by decide))
  have h₄ := h₃.step trivial (Step.writeTable _ _ _ historyFile rfl rfl rfl rfl
    (fun f hf => absurd hf List.not_mem_nil))
  have h₅ := h₄.step trivial (Step.commit _ _ [[8]] (2 : ℕ) .ok rfl rfl rfl
    (by simp [maxFrame]) (show 1 + 1 ≤ maxU64 by decide) (min_le_right _ _))
  -- the first root names the segment that its build wrote
  have h₆ := h₅.step trivial (Step.build _ _ _ (historyRoot 1 1 [historyFile]) rfl rfl rfl rfl rfl
    ((valid_historyRoot (by decide) (by decide) (Or.inr rfl)).decode_encode (by decide +kernel))
    (by decide +kernel)
    (fun f hf => Or.inr (Or.inr
      ⟨List.mem_append_right _ hf, by rw [List.mem_singleton.mp hf]; rfl⟩)) rfl)
  have h₇ := h₆.step trivial (Step.install _ _ _ _ .ok rfl rfl rfl rfl)
  have h₈ := h₇.step trivial (Step.cleanupDone _ _ rfl)
  -- the second root does without it, and the third names it again
  have h₉ := h₈.step trivial (Step.capture _ _ .ok rfl rfl rfl rfl (show 2 + 1 ≤ maxU64 by decide))
  have h₁₀ := h₉.step trivial (Step.build _ _ _ (historyRoot 2 2 []) rfl rfl rfl rfl rfl
    ((valid_historyRoot (by decide) (by decide) (Or.inl rfl)).decode_encode (by decide +kernel))
    (by decide +kernel)
    (fun f hf => absurd hf List.not_mem_nil) rfl)
  have h₁₁ := h₁₀.step trivial (Step.install _ _ _ _ .ok rfl rfl rfl rfl)
  have h₁₂ := h₁₁.step trivial (Step.cleanupDone _ _ rfl)
  have h₁₃ := h₁₂.step trivial (Step.capture _ _ .ok rfl rfl rfl rfl
    (show 3 + 1 ≤ maxU64 by decide))
  have h₁₄ := h₁₃.step trivial (Step.build _ _ _ (historyRoot 3 2 [historyFile]) rfl rfl rfl rfl rfl
    ((valid_historyRoot (by decide) (by decide) (Or.inr rfl)).decode_encode (by decide +kernel))
    (by decide +kernel)
    (fun f hf => Or.inr (Or.inl ⟨_, rfl, hf⟩)) rfl)
  have h₁₅ := h₁₄.step trivial (Step.install _ _ _ _ .ok rfl rfl rfl rfl)
  have h₁₆ := h₁₅.step trivial (Step.commit _ _ [[9]] (3 : ℕ) (.error 5 false) rfl rfl rfl
    (by simp [maxFrame]) (show 2 + 1 ≤ maxU64 by decide) (min_le_right _ _))
  have h₁₇ := h₁₆.step trivial (Step.crash_syncedBytes _ _)
  obtain ⟨o, txs, state, hopen, hlsn, -, -, -, -, hacked, -⟩ := recovery_complete h₁₇
  have hmem : (2, [8]) ∈ numbered 0 [[7]] ++ numbered 1 [[8]] :=
    List.mem_append_right _ (List.mem_singleton_self _)
  exact ⟨_, rfl, rfl, rfl, o, hopen, (hacked (2, [8]) hmem).1⟩
end Run

end EveDB
