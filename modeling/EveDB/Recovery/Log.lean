import EveDB.Recovery.System

/-!
# What a log says

A log segment as the frames it holds whole, behind the last of them a torn
remainder, and in front a number of frames a sync has covered (`LogSegment`). The
invariant of a log (`Log.Sound`) is stated on these frames: the transactions of all
segments, in order, are the sequences from one on; every segment that has a frame
begins with a root; and a root of generation `g` contains exactly the transactions
of the segments numbered below `g`.

That last clause is what makes recovery meet: whichever root it picks, the
segments it goes on to read hold the sequences behind the root's own
(`Log.Sound.transactions_since`).
-/

namespace EveDB

/-- A log segment, as frames. -/
structure LogSegment where
  number : ℕ
  /-- The complete frames. -/
  frames : List Frame
  /-- What is left of an incomplete one. -/
  torn : Bytes
  /-- How many of the frames a sync has covered. -/
  synced : ℕ

/-- A log: its segments in the order of their numbers. -/
abbrev Log := List LogSegment

namespace LogSegment

/-- The bytes of the segment. -/
def segment (s : LogSegment) : Segment where
  number := s.number
  bytes := frameBytes s.frames ++ s.torn
  durable := (frameBytes (s.frames.take s.synced)).length

@[simp] theorem segment_number (s : LogSegment) : s.segment.number = s.number := rfl

@[simp] theorem segment_bytes (s : LogSegment) :
    s.segment.bytes = frameBytes s.frames ++ s.torn := rfl

@[simp] theorem segment_durable (s : LogSegment) :
    s.segment.durable = (frameBytes (s.frames.take s.synced)).length := rfl

/-- The root a frame publishes. -/
def frameRoot (f : Frame) : Option Root :=
  if f.kind = 1 then (Root.decode f.payload).toOption else none

/-- The roots published in a segment. -/
def roots (s : LogSegment) : List Root := s.frames.filterMap frameRoot

/-- The transaction frames of a list. -/
def txsOf (frames : List Frame) : List Frame := frames.filter fun f => f.kind = 2

/-- The transactions of a segment. -/
def transactions (s : LogSegment) : List Frame := txsOf s.frames

end LogSegment

namespace Log

/-- The roots published in a log. -/
def roots (L : Log) : List Root := L.flatMap LogSegment.roots

/-- The transactions of a log. -/
def transactions (L : Log) : List Frame := L.flatMap LogSegment.transactions

/-- The files of a log. -/
def segments (L : Log) : List Segment := L.map LogSegment.segment

/-- The segments numbered below `g`. -/
def below (L : Log) (g : ℕ) : Log := L.filter fun s => s.number < g

/-- The segments numbered from `g` on. -/
def since (L : Log) (g : ℕ) : Log := L.filter fun s => g ≤ s.number

/-- The segments that hold a complete frame. -/
def headed (L : Log) : Log := L.filter fun s => s.frames ≠ []

end Log

/-- A frame of the log is a transaction, or a root that is read back. -/
structure LogSegment.FrameOk (number : ℕ) (f : Frame) : Prop where
  valid : f.Valid
  kind : f.kind = 1 ∨ f.kind = 2
  root : f.kind = 1 → ∃ r, f = rootFrame r ∧ Root.decode r.encode = .ok r ∧ r.generation ≤ number

/-- **The invariant of a log** that holds the transactions `timeline`. -/
structure Log.Sound (L : Log) (timeline : List Bytes) : Prop where
  ascending : L.Pairwise fun s t => s.number < t.number
  frames : ∀ s ∈ L, ∀ f ∈ s.frames, LogSegment.FrameOk s.number f
  /-- A segment begins with a root. -/
  header : ∀ s ∈ L, ∀ f ∈ s.frames.head?, f.kind = 1
  torn : ∀ s ∈ L, TornLog.Torn Frame.format Frame.Valid s.torn
  synced_le : ∀ s ∈ L, s.synced ≤ s.frames.length
  /-- Only the last segment with a complete frame can end in an incomplete one. -/
  sealed : ∀ s ∈ L, ∀ t ∈ L, s.number < t.number → s.frames ≠ [] → t.frames ≠ [] → s.torn = []
  /-- The transactions are numbered from one. -/
  transactions : L.transactions = txFrames 0 timeline
  /-- A root contains the transactions of the segments below its generation. -/
  below : ∀ r ∈ L.roots, (L.below r.generation).transactions.length = r.lsn
  /-- There is one root of a generation. -/
  unique : ∀ r ∈ L.roots, ∀ r' ∈ L.roots, r.generation = r'.generation → r = r'

/-! ### Small facts -/

section Basic

@[simp] theorem frameBytes_nil : frameBytes [] = [] := rfl

@[simp] theorem frameBytes_cons (f : Frame) (fs : List Frame) :
    frameBytes (f :: fs) = f.bytes ++ frameBytes fs := rfl

@[simp] theorem frameBytes_append (fs gs : List Frame) :
    frameBytes (fs ++ gs) = frameBytes fs ++ frameBytes gs :=
  TornLog.encodeAll_append fs gs

@[simp] theorem length_txFrames (n : ℕ) (ps : List Bytes) : (txFrames n ps).length = ps.length := by
  induction ps generalizing n with
  | nil => rfl
  | cons p ps ih => simp [txFrames, ih]

theorem txFrames_append (n : ℕ) (ps qs : List Bytes) :
    txFrames n (ps ++ qs) = txFrames n ps ++ txFrames (n + ps.length) qs := by
  induction ps generalizing n with
  | nil => simp [txFrames]
  | cons p ps ih =>
    rw [List.cons_append, txFrames, ih, txFrames, List.cons_append, List.length_cons]
    congr 3
    omega

theorem txFrames_take (n k : ℕ) (ps : List Bytes) :
    (txFrames n ps).take k = txFrames n (ps.take k) := by
  induction ps generalizing n k with
  | nil => simp [txFrames]
  | cons p ps ih => cases k <;> simp [txFrames, ih]

theorem txFrames_drop (n k : ℕ) (ps : List Bytes) :
    (txFrames n ps).drop k = txFrames (n + k) (ps.drop k) := by
  induction ps generalizing n k with
  | nil => simp [txFrames]
  | cons p ps ih =>
    cases k with
    | zero => rfl
    | succ k => simp [txFrames, ih, Nat.add_assoc, Nat.add_comm 1]

/-- Cutting the frames of transactions cuts the transactions. -/
theorem txFrames_eq_append {n : ℕ} {ps : List Bytes} {A B : List Frame}
    (h : txFrames n ps = A ++ B) : ∃ ps₁ ps₂, ps = ps₁ ++ ps₂ ∧ A = txFrames n ps₁ ∧
      B = txFrames (n + ps₁.length) ps₂ := by
  have hle : A.length ≤ ps.length := by
    have := congrArg List.length h
    rw [length_txFrames, List.length_append] at this
    omega
  refine ⟨ps.take A.length, ps.drop A.length, (List.take_append_drop _ _).symm, ?_, ?_⟩
  · rw [← txFrames_take, h, List.take_left]
  · rw [List.length_take, min_eq_left hle, ← txFrames_drop, h, List.drop_left]

theorem Semantics.run_append {E : Engine} (S : Semantics E) (s : S.State) (n : ℕ)
    (ps qs : List Bytes) :
    S.run s n (ps ++ qs) = (S.run s n ps).bind fun s' => S.run s' (n + ps.length) qs := by
  induction ps generalizing s n with
  | nil => simp [run]
  | cons p ps ih =>
    simp only [List.cons_append, run, List.length_cons]
    cases S.exec s (n + 1) p with
    | none => rfl
    | some s' =>
      rw [Option.bind_some, ih, Option.bind_some]
      congr 2
      funext s''
      congr 1
      omega

theorem numbered_append (n : ℕ) (ps qs : List Bytes) :
    numbered n (ps ++ qs) = numbered n ps ++ numbered (n + ps.length) qs := by
  induction ps generalizing n with
  | nil => simp [numbered]
  | cons p ps ih =>
    rw [List.cons_append, numbered, ih, numbered, List.cons_append, List.length_cons]
    congr 3
    omega

theorem mem_txFrames {n : ℕ} {ps : List Bytes} {f : Frame} (h : f ∈ txFrames n ps) :
    f.kind = 2 ∧ n < f.lsn ∧ f.lsn ≤ n + ps.length ∧ f.payload ∈ ps := by
  induction ps generalizing n with
  | nil => cases h
  | cons p ps ih =>
    rcases List.mem_cons.mp h with rfl | h
    · simp
    · obtain ⟨h1, h2, h3, h4⟩ := ih h
      refine ⟨h1, by omega, by simp only [List.length_cons]; omega, List.mem_cons_of_mem p h4⟩

@[simp] theorem LogSegment.txsOf_append (fs gs : List Frame) :
    txsOf (fs ++ gs) = txsOf fs ++ txsOf gs := by
  simp [txsOf]

@[simp] theorem LogSegment.txsOf_txFrames (n : ℕ) (ps : List Bytes) :
    txsOf (txFrames n ps) = txFrames n ps := by
  rw [txsOf, List.filter_eq_self]
  intro f hf
  simpa using (mem_txFrames hf).1

/-- The roots of a frame list, one frame at a time. -/
theorem LogSegment.frameRoot_rootFrame {r : Root} (h : Root.decode r.encode = .ok r) :
    frameRoot (rootFrame r) = some r := by
  simp [frameRoot, rootFrame, h, Except.toOption]

theorem LogSegment.frameRoot_of_kind {f : Frame} (h : f.kind ≠ 1) : frameRoot f = none := by
  simp [frameRoot, h]

@[simp] theorem LogSegment.filterMap_txFrames (n : ℕ) (ps : List Bytes) :
    (txFrames n ps).filterMap frameRoot = [] := by
  rw [List.filterMap_eq_nil_iff]
  intro f hf
  exact frameRoot_of_kind (by rw [(mem_txFrames hf).1]; decide)

/-- The frame of a root in a sound segment. -/
theorem LogSegment.FrameOk.frameRoot {number : ℕ} {f : Frame} (h : FrameOk number f) {r : Root}
    (hr : LogSegment.frameRoot f = some r) :
    f = rootFrame r ∧ Root.decode r.encode = .ok r ∧ r.generation ≤ number := by
  have hk : f.kind = 1 := by
    by_contra hk
    rw [frameRoot_of_kind hk] at hr
    cases hr
  obtain ⟨r', rfl, hdecode, hle⟩ := h.root hk
  rw [frameRoot_rootFrame hdecode] at hr
  cases hr
  exact ⟨rfl, hdecode, hle⟩

theorem Log.mem_roots {L : Log} {r : Root} :
    r ∈ L.roots ↔ ∃ s ∈ L, ∃ f ∈ s.frames, LogSegment.frameRoot f = some r := by
  simp [Log.roots, LogSegment.roots, List.mem_flatMap, List.mem_filterMap]

@[simp] theorem Log.transactions_append (L M : Log) :
    Log.transactions (L ++ M) = L.transactions ++ M.transactions := by
  simp [Log.transactions]

@[simp] theorem Log.roots_append (L M : Log) : Log.roots (L ++ M) = L.roots ++ M.roots := by
  simp [Log.roots]

theorem Log.headed_cons (s : LogSegment) (L : Log) :
    Log.headed (s :: L) = if s.frames = [] then Log.headed L else s :: Log.headed L := by
  by_cases h : s.frames = [] <;> simp [headed, h]

/-- **Splitting a log at a generation.** -/
theorem Log.below_append_since {L : Log} (h : L.Pairwise fun s t => s.number < t.number) (g : ℕ) :
    L.below g ++ L.since g = L := by
  induction L with
  | nil => rfl
  | cons s L ih =>
    rw [List.pairwise_cons] at h
    have ih := ih h.2
    by_cases hs : s.number < g
    · have hs' : ¬ g ≤ s.number := by omega
      simp only [below, since, List.filter_cons, hs, hs', decide_true, decide_false, if_true,
        Bool.false_eq_true, if_false, List.cons_append] at ih ⊢
      rw [ih]
    · have hnone : below L g = [] := by
        rw [below, List.filter_eq_nil_iff]
        intro t ht
        have := h.1 t ht
        simp
        omega
      have hs' : g ≤ s.number := by omega
      simp only [below, since] at hnone ih ⊢
      rw [hnone, List.nil_append] at ih
      simp [hs, hs', hnone, ih]

/-- What is above a generation survives when only older segments are removed. -/
theorem Log.since_eq_of_sublist {P L : Log} {g : ℕ}
    (h : L.Pairwise fun s t => s.number < t.number) (hsub : P.Sublist L)
    (hkeep : ∀ s ∈ L, g ≤ s.number → s ∈ P) : P.since g = L.since g := by
  induction hsub with
  | slnil => rfl
  | @cons P L s hsub ih =>
    rw [List.pairwise_cons] at h
    have hs : ¬ g ≤ s.number := fun hle =>
      (h.1 s (hsub.subset (hkeep s List.mem_cons_self hle))).false
    rw [ih h.2 fun t ht hle => hkeep t (List.mem_cons_of_mem s ht) hle]
    simp [since, hs]
  | @cons_cons P L s hsub ih =>
    rw [List.pairwise_cons] at h
    have ih := ih h.2 fun t ht hle => by
      rcases List.mem_cons.mp (hkeep t (List.mem_cons_of_mem s ht) hle) with rfl | hmem
      · exact absurd (h.1 t ht) (lt_irrefl _)
      · exact hmem
    simp only [since] at ih
    simp [since, List.filter_cons, ih]

/-- The last segment with a complete frame has the largest number of them. -/
theorem Log.number_le_of_getLast? {L : Log} {a : LogSegment}
    (h : L.Pairwise fun s t => s.number < t.number) (ha : L.headed.getLast? = some a) :
    a ∈ L ∧ a.frames ≠ [] ∧ ∀ s ∈ L, s.frames ≠ [] → s.number ≤ a.number := by
  have hmem := List.mem_of_getLast? ha
  rw [headed, List.mem_filter] at hmem
  refine ⟨hmem.1, by simpa using hmem.2, fun s hs hne => ?_⟩
  obtain ⟨front, hfront⟩ := List.getLast?_eq_some_iff.mp ha
  have hs' : s ∈ L.headed := List.mem_filter.mpr ⟨hs, by simpa using hne⟩
  have hpair : L.headed.Pairwise fun s t => s.number < t.number := h.filter _
  rw [hfront, List.pairwise_append] at hpair
  rw [hfront, List.mem_append] at hs'
  rcases hs' with hs' | hs'
  · exact (hpair.2.2 s hs' a (by simp)).le
  · rw [List.mem_singleton.mp hs']

end Basic

namespace Log.Sound

variable {L : Log} {timeline : List Bytes}

/-- **The segments from a root's generation on hold the sequences behind the root's.** -/
theorem transactions_since (h : L.Sound timeline) {r : Root} (hr : r ∈ L.roots) :
    (L.since r.generation).transactions = txFrames r.lsn (timeline.drop r.lsn) := by
  have hsplit := congrArg Log.transactions (Log.below_append_since h.ascending r.generation)
  rw [transactions_append, h.transactions] at hsplit
  have hdrop := congrArg (List.drop r.lsn) hsplit
  rw [← h.below r hr, List.drop_left, h.below r hr, txFrames_drop, Nat.zero_add] at hdrop
  exact hdrop

/-- A root's sequence is one of the timeline's. -/
theorem lsn_le (h : L.Sound timeline) {r : Root} (hr : r ∈ L.roots) : r.lsn ≤ timeline.length := by
  have hsplit := congrArg List.length
    (congrArg Log.transactions (Log.below_append_since h.ascending r.generation))
  rw [transactions_append, h.transactions, List.length_append, h.below r hr,
    length_txFrames] at hsplit
  omega

end Log.Sound

end EveDB
