import EveDB.Recovery.LogOps
import EveDB.Recovery.Open
import EveDB.Manifest.Codec

/-!
# The invariant of a run

What holds of a directory and its owner in every state a run reaches (`Inv`): the
segments on disk are what is left of a sound log, from a generation `floor` on
nothing of it is missing, some root from there on is synced, and everything
acknowledged lies in front of a synced point that no crash can cut.

The clauses under `strict` are the ones about durability that hold only in runs
whose steps meet a condition; see `EveDB.Recovery.Durability`.
-/

namespace EveDB

variable {E : Engine} {S : Semantics E}

/-- A checkpoint that can still be installed. -/
structure JobInv (s : System S) (h : Handle S) (L : Log) (timeline : List Bytes)
    (job : CheckpointJob S) : Prop where
  generation : h.active = job.generation
  fresh : ∀ r ∈ L.roots, r.generation < job.generation
  lsn : (L.below job.generation).transactions.length = job.lsn
  lsn_le : job.lsn ≤ timeline.length
  state : S.run S.initial 0 (timeline.take job.lsn) = some job.state
  built : ∀ root, job.built = some root → root.generation = job.generation ∧
    root.lsn = job.lsn ∧ Root.decode root.encode = .ok root ∧
    root.encode.length ≤ maxFrame ∧ (∀ f ∈ root.files, f ∈ s.dir.tables) ∧
    S.Denotes (E.load root) job.state

/-- The owner of the directory. What a failed write leaves open is claimed of a
handle that is not poisoned only. -/
structure HandleInv (s : System S) (h : Handle S) (L : Log) (timeline : List Bytes)
    (floor : ℕ) : Prop where
  root_mem : h.root ∈ L.roots
  floor_le : floor ≤ h.root.generation
  next : h.nextGeneration + 1 ≤ maxU64 → ∀ t ∈ L, t.number < h.nextGeneration
  newest : h.poisoned = false → ∀ r ∈ L.roots, r.generation ≤ h.root.generation
  lsn : h.poisoned = false → h.lsn = timeline.length
  state : h.poisoned = false → S.run S.initial 0 timeline = some h.state
  active : h.poisoned = false → ∃ a, L.headed.getLast? = some a ∧ a.number = h.active
  whole : h.poisoned = false → ∀ t ∈ L, t.frames ≠ [] → t.torn = []
  job : h.poisoned = false → ∀ job, h.job = some job → JobInv s h L timeline job
  job_none : h.cleanup ≠ none → h.job = none
  cleanup_le : ∀ previous, h.cleanup = some previous → previous.generation ≤ floor
  cleanup_roots : ∀ previous, h.cleanup = some previous →
    ∀ r ∈ L.roots, floor ≤ r.generation → r = previous ∨ r = h.root
  replaced : ∀ previous, h.replaced = some previous → previous ∈ L.roots ∧
    floor ≤ previous.generation

/-- A root is published in a synced frame. -/
def Log.Published (P : Log) (root : Root) : Prop :=
  ∃ t ∈ P, ∃ f ∈ t.frames.take t.synced, LogSegment.frameRoot f = some root

/-- Every segment in front of another with frames is synced. -/
def Log.SealedSynced (L : Log) : Prop :=
  ∀ t ∈ L, ∀ u ∈ L, t.number < u.number → t.frames ≠ [] → u.frames ≠ [] →
    t.synced = t.frames.length

/-- What is on disk. `L` is the log as if nothing had been cleaned up, `P` what is
left of it, and `timeline` the transactions whose frames are whole. -/
structure Stored (S : Semantics E) (dir : Directory) (writing : ℕ) (L P : Log)
    (timeline : List Bytes) (floor : ℕ) : Prop where
  sound : L.Sound timeline
  control : dir.control = controlFormat
  segments : dir.segments = P.segments
  sublist : P.Sublist L
  keep : ∀ t ∈ L, floor ≤ t.number → t ∈ P
  /-- The segment written last is not older than any that has frames. -/
  writing : ∀ t ∈ L, writing < t.number → t.frames = []
  length_le : timeline.length ≤ maxU64
  runs : ∃ st, S.run S.initial 0 timeline = some st
  denotes : ∀ r ∈ L.roots, ∃ st, S.run S.initial 0 (timeline.take r.lsn) = some st ∧
    S.Denotes (E.load r) st
  tables : (dir.tables.map FileInfo.id).Nodup
  files : ∀ r ∈ L.roots, floor ≤ r.generation → ∀ f ∈ r.files, f ∈ dir.tables
  anchor : ∃ root, P.Published root ∧ floor ≤ root.generation

/-- Every transaction up to number `n` lies in front of a synced point of the log. -/
def Log.SyncedTo (L : Log) (writing n : ℕ) : Prop :=
  ∃ d ∈ L, 0 < d.synced ∧ d.number ≤ writing ∧
    n ≤ (L.below d.number).transactions.length + (LogSegment.txsOf (d.frames.take d.synced)).length

/-- **The invariant.** -/
structure Inv (strict : Prop) (s : System S) (L P : Log) (timeline : List Bytes)
    (floor : ℕ) : Prop where
  stored : Stored S s.dir s.writing L P timeline floor
  acked : s.acked ⊆ numbered 0 timeline
  acked_synced : ∃ n, L.SyncedTo s.writing n ∧ ∀ x ∈ s.acked, x.1 ≤ n
  submitted : numbered 0 timeline ⊆ s.submitted
  handle : ∀ h, s.handle = some h → HandleInv s h L timeline floor
  sealed_synced : strict → L.SealedSynced
  root_synced : strict → ∀ h, s.handle = some h → P.Published h.root

/-! ### Small facts -/

section Basic

theorem mem_numbered {n : ℕ} {ps : List Bytes} {x : ℕ × Bytes} :
    x ∈ numbered n ps ↔ ∃ i, ∃ h : i < ps.length, x = (n + i + 1, ps[i]) := by
  induction ps generalizing n with
  | nil => simp [numbered]
  | cons p ps ih =>
    rw [numbered, List.mem_cons, ih]
    constructor
    · rintro (rfl | ⟨i, hi, rfl⟩)
      · exact ⟨0, by simp, by simp⟩
      · exact ⟨i + 1, by simpa using hi, by simp; omega⟩
    · rintro ⟨i, hi, rfl⟩
      cases i with
      | zero => exact Or.inl (by simp)
      | succ i => exact Or.inr ⟨i, by simpa using hi, by simp; omega⟩

/-- A transaction numbered below a cut is still there after it. -/
theorem mem_numbered_take {ps : List Bytes} {k : ℕ} {x : ℕ × Bytes} (hx : x ∈ numbered 0 ps)
    (hk : x.1 ≤ k) : x ∈ numbered 0 (ps.take k) := by
  obtain ⟨i, hi, rfl⟩ := mem_numbered.mp hx
  have hik : i < k := by simp only at hk; omega
  exact mem_numbered.mpr ⟨i, by simp; omega, by simp⟩

theorem numbered_take_subset (ps : List Bytes) (k : ℕ) :
    numbered 0 (ps.take k) ⊆ numbered 0 ps := by
  intro x hx
  rw [← List.take_append_drop k ps, numbered_append]
  exact List.mem_append_left _ hx

/-- The files of a root verify when they are there. -/
theorem verifyFiles_eq_ok {tables files : List FileInfo}
    (hnodup : (tables.map FileInfo.id).Nodup) (h : ∀ f ∈ files, f ∈ tables) :
    verifyFiles tables files = .ok () := by
  induction files with
  | nil => rfl
  | cons f fs ih =>
    have hf := h f List.mem_cons_self
    have hfind : tables.find? (fun found => found.id = f.id) = some f := by
      clear ih h
      induction tables with
      | nil => cases hf
      | cons t ts iht =>
        rw [List.map_cons, List.nodup_cons] at hnodup
        rcases List.mem_cons.mp hf with rfl | hf
        · simp
        · have hne : t.id ≠ f.id := fun heq =>
            hnodup.1 (heq ▸ List.mem_map_of_mem hf)
          simp [hne, iht hnodup.2 hf]
    rw [verifyFiles, hfind]
    simp [ih fun g hg => h g (List.mem_cons_of_mem f hg)]

/-- There is a newest root in any nonempty list. -/
theorem exists_newest {roots : List Root} (h : roots ≠ []) :
    ∃ r ∈ roots, ∀ r' ∈ roots, r'.generation ≤ r.generation := by
  induction roots with
  | nil => exact absurd rfl h
  | cons r rs ih =>
    by_cases hrs : rs = []
    · exact ⟨r, by simp, by simp [hrs]⟩
    obtain ⟨m, hm, hmax⟩ := ih hrs
    by_cases hle : r.generation ≤ m.generation
    · refine ⟨m, List.mem_cons_of_mem r hm, fun r' hr' => ?_⟩
      rcases List.mem_cons.mp hr' with rfl | hr'
      · exact hle
      · exact hmax r' hr'
    · refine ⟨r, List.mem_cons_self, fun r' hr' => ?_⟩
      rcases List.mem_cons.mp hr' with rfl | hr'
      · exact le_rfl
      · exact (hmax r' hr').trans (by omega)

/-- The frames behind the last segment that has any. -/
theorem Log.frames_eq_nil_of_headed {L : Log} {a : LogSegment}
    (h : L.Pairwise fun s t => s.number < t.number) (ha : L.headed.getLast? = some a)
    {t : LogSegment}
    (ht : t ∈ L) (hlt : a.number < t.number) : t.frames = [] := by
  by_contra hne
  exact absurd ((Log.number_le_of_getLast? h ha).2.2 t ht hne) (not_le.mpr hlt)

end Basic

/-! ### The start -/

/-- The log of a directory that has been initialized. -/
def Log.initial : Log := [⟨0, [rootFrame Root.empty], [], 1⟩]

theorem Log.mem_roots_initial {r : Root} : r ∈ Log.initial.roots ↔ r = Root.empty := by
  simp [initial, roots, LogSegment.roots,
    LogSegment.frameRoot_rootFrame Root.decode_encode_empty]

theorem Log.sound_initial : Log.initial.Sound [] where
  ascending := List.pairwise_singleton _ _
  frames := by
    have hvalid : (rootFrame Root.empty).Valid := by
      refine ⟨by decide, by decide, ?_⟩
      rw [rootFrame, Root.length_encode_empty]
      decide
    simp only [initial, List.mem_singleton, forall_eq]
    exact ⟨hvalid, Or.inl rfl, fun _ => ⟨Root.empty, rfl, Root.decode_encode_empty, le_rfl⟩⟩
  header := by simp [initial, rootFrame]
  torn := by simpa [initial] using TornLog.torn_nil
  synced_le := by simp [initial]
  sealed := by simp [initial]
  transactions := by
    simp [initial, transactions, LogSegment.transactions, LogSegment.txsOf, rootFrame, txFrames]
  below := fun r hr => by
    rw [mem_roots_initial.mp hr]
    simp [initial, below, transactions, Root.empty]
  unique := fun r hr r' hr' _ => (mem_roots_initial.mp hr).trans (mem_roots_initial.mp hr').symm

theorem Log.segments_initial : Log.initial.segments = initializeDirectory.segments := by
  simp [initial, segments, initializeDirectory, LogSegment.segment]

/-- **The invariant at the start.** -/
theorem Inv.initial (strict : Prop) :
    Inv strict (System.initial S) Log.initial Log.initial [] 0 where
  stored :=
    { sound := Log.sound_initial
      control := rfl
      segments := Log.segments_initial.symm
      sublist := List.Sublist.refl _
      keep := fun t ht _ => ht
      writing := by simp [System.initial, Log.initial]
      length_le := Nat.zero_le _
      runs := ⟨S.initial, rfl⟩
      denotes := fun r hr => by
        rw [Log.mem_roots_initial.mp hr]
        exact ⟨S.initial, rfl, S.denotes_empty⟩
      tables := List.nodup_nil
      files := fun r hr _ f hf => by
        rw [Log.mem_roots_initial.mp hr] at hf
        cases hf
      anchor := ⟨Root.empty, ⟨_, List.mem_singleton_self _, rootFrame Root.empty, by simp,
        LogSegment.frameRoot_rootFrame Root.decode_encode_empty⟩, Nat.zero_le _⟩ }
  acked := by simp [System.initial]
  acked_synced := ⟨0, ⟨_, List.mem_singleton_self _, Nat.one_pos, le_rfl, Nat.zero_le _⟩,
    by simp [System.initial]⟩
  submitted := by simp [numbered]
  handle := by simp [System.initial]
  sealed_synced := by simp [Log.SealedSynced, Log.initial]
  root_synced := by simp [System.initial]

end EveDB
