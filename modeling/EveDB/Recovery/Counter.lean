import EveDB.Recovery.Preservation
import EveDB.Recovery.Transport

/-!
# The counter of the uncheckpointed log

How many bytes of the log are not in the root is kept as a counter (`Handle.walBytes`): a commit
adds what it writes, an installed checkpoint takes away what there was when it was captured, and
recovery adds up the lengths of the payloads it replays.

It is compared with the frames in the directory (`Directory.uncheckpointed`). Along every run the
counter is the length of the transactions behind the root up to the current one
(`System.Counted`), whatever commits come between a capture and its installation, and however
many captures are abandoned.
-/

namespace EveDB

/-! ### What is in the directory -/

namespace Directory

/-- The complete transaction frames of a directory. -/
def transactions (dir : Directory) : List Frame :=
  dir.segments.flatMap fun segment => LogSegment.txsOf segment.frames

/-- How many bytes the transactions behind one sequence and not behind another take. -/
def uncheckpointed (dir : Directory) (root lsn : ℕ) : ℕ :=
  ((dir.transactions.filter fun f => root < f.lsn ∧ f.lsn ≤ lsn).map fun f => f.bytes.length).sum

end Directory

/-- How many bytes the transactions of a timeline take behind one sequence and not behind
another. -/
def bytesBetween (timeline : List Bytes) (n m : ℕ) : ℕ :=
  (frameBytes (txFrames n ((timeline.take m).drop n))).length

section Timeline

variable {timeline ps : List Bytes} {n m k : ℕ}

theorem length_frameBytes (frames : List Frame) :
    (frameBytes frames).length = (frames.map fun f => f.bytes.length).sum := by
  induction frames with
  | nil => rfl
  | cons f frames ih => rw [frameBytes_cons, List.length_append, ih, List.map_cons, List.sum_cons]

@[simp] theorem bytesBetween_self : bytesBetween timeline n n = 0 := by
  rw [bytesBetween, List.drop_take_self]
  rfl

/-- **What lies between is made up of two parts.** -/
theorem bytesBetween_add (hnm : n ≤ m) (hmk : m ≤ k) (hk : k ≤ timeline.length) :
    bytesBetween timeline n m + bytesBetween timeline m k = bytesBetween timeline n k := by
  have hm : (timeline.take m).length = m := List.length_take_of_le (hmk.trans hk)
  have htake : timeline.take k = timeline.take m ++ (timeline.take k).drop m := by
    conv_lhs => rw [← List.take_append_drop m (timeline.take k), List.take_take, min_eq_left hmk]
  have hsplit :
      (timeline.take k).drop n = (timeline.take m).drop n ++ (timeline.take k).drop m := by
    conv_lhs => rw [htake, List.drop_append_of_le_length (hm.symm ▸ hnm)]
  have hbehind : n + ((timeline.take m).drop n).length = m := by
    rw [List.length_drop, hm, Nat.add_sub_cancel' hnm]
  rw [bytesBetween, bytesBetween, bytesBetween, hsplit, txFrames_append, hbehind, frameBytes_append,
    List.length_append]

/-- Later transactions are not between earlier ones. -/
theorem bytesBetween_append (hm : m ≤ timeline.length) :
    bytesBetween (timeline ++ ps) n m = bytesBetween timeline n m := by
  rw [bytesBetween, List.take_append_of_le_length hm, bytesBetween]

/-- **What a commit adds.** -/
theorem bytesBetween_commit (hn : n ≤ timeline.length) :
    bytesBetween (timeline ++ ps) n (timeline.length + ps.length) =
      bytesBetween timeline n timeline.length +
        (frameBytes (txFrames timeline.length ps)).length := by
  have hparts := @bytesBetween_add (timeline ++ ps) n timeline.length (timeline.length + ps.length)
    hn (Nat.le_add_right _ _) (List.length_append.symm ▸ le_rfl)
  have hnew : bytesBetween (timeline ++ ps) timeline.length (timeline.length + ps.length) =
      (frameBytes (txFrames timeline.length ps)).length := by
    rw [bytesBetween, ← List.length_append, List.take_length, List.drop_left]
  rw [← hparts, bytesBetween_append le_rfl, hnew]

/-- The transactions up to a sequence are the first ones. -/
theorem filter_txFrames (n m : ℕ) (ps : List Bytes) :
    (txFrames n ps).filter (fun f => f.lsn ≤ m) = txFrames n (ps.take (m - n)) := by
  induction ps generalizing n with
  | nil => rw [List.take_nil]; rfl
  | cons p ps ih =>
    rw [txFrames]
    by_cases hle : n + 1 ≤ m
    · have hnext : m - n = m - (n + 1) + 1 := by omega
      rw [List.filter_cons, if_pos (decide_eq_true hle), ih, hnext, List.take_succ_cons, txFrames]
    · have hnone : m - (n + 1) = 0 ∧ m - n = 0 := by omega
      rw [List.filter_cons, if_neg (by rwa [decide_eq_true_eq]), ih, hnone.1, hnone.2]
      rfl

end Timeline

variable {E : Engine} {S : Semantics E}

/-! ### What the log says -/

section Stored

variable {dir : Directory} {writing floor m : ℕ} {L P : Log} {timeline : List Bytes} {r : Root}

/-- The transactions in a directory are those of the log that is left. -/
theorem Stored.transactions_eq (h : Stored S dir writing L P timeline floor) :
    dir.transactions = P.transactions := by
  rw [Directory.transactions, h.segments, Log.segments, Log.transactions, List.flatMap_map]
  refine List.flatMap_congr fun t ht => ?_
  have htL := h.sublist.subset ht
  rw [LogSegment.frames_segment (fun f hf => (h.sound.frames t htL f hf).valid)
    (h.sound.torn t htL)]
  rfl

/-- **What is behind a root** in the directory is what is behind it on the timeline. -/
theorem Stored.uncheckpointed_eq (h : Stored S dir writing L P timeline floor) (hr : r ∈ L.roots)
    (hfloor : floor ≤ r.generation) :
    dir.uncheckpointed r.lsn m = bytesBetween timeline r.lsn m := by
  have hasc := h.sound.ascending
  have hsince : (P.since r.generation).transactions =
      txFrames r.lsn (timeline.drop r.lsn) := by
    rw [Log.since_eq_of_sublist hasc h.sublist fun t ht hle => h.keep t ht (hfloor.trans hle)]
    exact h.sound.transactions_since hr
  -- what is left of the older segments is in the root
  have hbelow : ∀ f ∈ (P.below r.generation).transactions, ¬ r.lsn < f.lsn := by
    intro f hf
    obtain ⟨t, ht, hft⟩ := List.mem_flatMap.mp hf
    have hfL : f ∈ (L.below r.generation).transactions :=
      List.mem_flatMap.mpr ⟨t, (h.sublist.filter _).subset ht, hft⟩
    have hwhole := congrArg Log.transactions (Log.below_append_since hasc r.generation)
    rw [Log.transactions_append, h.sound.transactions] at hwhole
    have hfirst := congrArg (List.take r.lsn) hwhole
    rw [← h.sound.below r hr, List.take_left, h.sound.below r hr, txFrames_take] at hfirst
    rw [hfirst] at hfL
    have hle := (mem_txFrames hfL).2.2.1
    rw [List.length_take] at hle
    omega
  rw [Directory.uncheckpointed, h.transactions_eq, bytesBetween, length_frameBytes,
    ← Log.below_append_since (hasc.sublist h.sublist) r.generation, Log.transactions_append,
    hsince, List.filter_append, List.filter_eq_nil_iff.mpr, List.nil_append, List.drop_take,
    ← filter_txFrames]
  · congr 2
    refine List.filter_congr fun f hf => decide_eq_decide.mpr ?_
    exact and_iff_right (mem_txFrames hf).2.1
  · intro f hf hwithin
    exact hbelow f hf (of_decide_eq_true hwithin).1

end Stored

/-! ### Recovery adds up what it replays -/

/-- What replayed transactions take in the log. -/
def replayedBytes (replayed : List (ℕ × Bytes)) : ℕ := (replayed.map fun x => 40 + x.2.length).sum

theorem replayedBytes_numbered (n : ℕ) (ps : List Bytes) :
    replayedBytes (numbered n ps) = (frameBytes (txFrames n ps)).length := by
  induction ps generalizing n with
  | nil => rfl
  | cons p ps ih =>
    rw [numbered, txFrames, frameBytes_cons, List.length_append, ← ih, Frame.length_bytes]
    rfl

theorem replayRecord_counts {root : Root} {s s' : Replay E} {record : Frame}
    (hs : s.walBytes = min (replayedBytes s.replayed) maxU64)
    (h : replayRecord root s record = .ok s') :
    s'.walBytes = min (replayedBytes s'.replayed) maxU64 := by
  unfold replayRecord at h
  dsimp only at h
  split at h
  · cases h
    exact hs
  split at h
  · cases h
  split at h
  · split at h
    · cases h
    · obtain ⟨view, -, heq⟩ := bind_eq_ok.mp h
      cases heq
      have hsum : replayedBytes (s.replayed ++ [(record.lsn, record.payload)]) =
          replayedBytes s.replayed + (40 + record.payload.length) := by
        rw [replayedBytes, List.map_append, List.sum_append, List.map_singleton, List.sum_singleton,
          replayedBytes]
      dsimp only
      rw [hsum, hs, saturatingAdd]
      generalize maxU64 = limit
      omega
  · cases h
    exact hs

/-- **What recovery counts** is what it replays, up to the largest counter there is. -/
theorem openWithOptions_counts {dir : Directory} {o : Opened E}
    (h : openWithOptions E dir = .ok o) :
    o.walBytes = min (replayedBytes o.replayed) maxU64 := by
  obtain ⟨s, hs, -, -, hbytes, hreplayed⟩ := openWithOptions_invariant
    (fun _ _ _ _ hs hrecord => replayRecord_counts hs hrecord) (fun _ _ _ hs => hs)
    (fun _ => rfl) h
  rw [← hbytes, ← hreplayed, hs]

/-! ### The counter along a run -/

/-- **The counter of a handle** is the length of the transactions behind its root; so is what a
capture notes of it. -/
structure Handle.Counted (h : Handle S) (timeline : List Bytes) : Prop where
  lsn_le : h.lsn ≤ timeline.length
  root_le : h.root.lsn ≤ h.lsn
  bytes : h.walBytes = bytesBetween timeline h.root.lsn h.lsn
  job : ∀ job, h.job = some job → h.root.lsn ≤ job.lsn ∧ job.lsn ≤ h.lsn ∧
    job.walFrontierBytes = bytesBetween timeline h.root.lsn job.lsn

/-- What a step must meet so that the counter, which has eight bytes, can hold what is counted. -/
def FitsStep (s : System S) : Action → Prop
  | .commit payloads _ => ∀ h, s.handle = some h →
      h.walBytes + (frameBytes (txFrames h.lsn payloads)).length ≤ maxU64
  | .reopen => ∀ o, openWithOptions E s.dir = .ok o →
      s.dir.uncheckpointed o.root.lsn o.lsn ≤ maxU64
  | _ => True

section Counted

variable {h h' : Handle S} {timeline timeline' : List Bytes}

/-- A handle that keeps root, sequence and counter keeps what they say, whatever is appended to
the timeline. -/
theorem Handle.Counted.keep (hh : h.Counted timeline) (hextends : timeline <+: timeline')
    (hroot : h'.root = h.root) (hlsn : h'.lsn = h.lsn) (hbytes : h'.walBytes = h.walBytes)
    (hjob : ∀ job, h'.job = some job → ∃ job', h.job = some job' ∧ job.lsn = job'.lsn ∧
      job.walFrontierBytes = job'.walFrontierBytes) : h'.Counted timeline' := by
  obtain ⟨ps, rfl⟩ := hextends
  refine ⟨?_, ?_, ?_, fun job hmem => ?_⟩
  · rw [hlsn, List.length_append]
    exact hh.lsn_le.trans (Nat.le_add_right _ _)
  · rw [hroot, hlsn]
    exact hh.root_le
  · rw [hbytes, hroot, hlsn, bytesBetween_append hh.lsn_le]
    exact hh.bytes
  · obtain ⟨job', hmem', hjlsn, hfrontier⟩ := hjob job hmem
    obtain ⟨hle, hle', heq⟩ := hh.job job' hmem'
    rw [hroot, hlsn, hjlsn, hfrontier, bytesBetween_append (hle'.trans hh.lsn_le)]
    exact ⟨hle, hle', heq⟩

variable {s s' : System S} {L P : Log} {floor : ℕ} {limits : WalLimits} {a : Action}

/-- **Every step keeps the counter.** -/
theorem Inv.counted_step (hinv : Inv False s L P timeline floor)
    (hcounted : ∀ h, s.handle = some h → h.Counted timeline) (hstep : Step S limits s a s')
    (hcontinues : Continues timeline timeline' a) (hfits : FitsStep s a) :
    ∀ h', s'.handle = some h' → h'.Counted timeline' := by
  have hsame {job' : Option (CheckpointJob S)} : ∀ job, job' = some job → ∃ job₀, job' = some job₀ ∧
      job.lsn = job₀.lsn ∧ job.walFrontierBytes = job₀.walFrontierBytes :=
    fun job hjob => ⟨job, hjob, rfl, rfl⟩
  cases hstep with
  | commit h payloads state o hh ready hstate hsize hlsn hlimit =>
    obtain ⟨written, hextends, hall, rfl⟩ := hcontinues
    have hold := hcounted h hh
    rintro h' ⟨⟩
    by_cases ho : o.failed
    · rw [if_pos ho]
      exact hold.keep (List.prefix_append _ _) rfl rfl rfl hsame
    · rw [if_neg ho]
      obtain rfl := hall (Bool.eq_false_iff.mpr ho)
      have hlen : h.lsn = timeline.length := (hinv.handle h hh).lsn ready
      refine ⟨?_, hold.root_le.trans (Nat.le_add_right _ _), ?_, fun job hjob => ?_⟩
      · rw [List.length_append, hlen]
      · dsimp only
        rw [wrappingAdd_of_le (hfits h hh), hold.bytes, hlen,
          bytesBetween_commit (hlen ▸ hold.root_le)]
      · obtain ⟨hle, hle', heq⟩ := hold.job job hjob
        refine ⟨hle, hle'.trans (Nat.le_add_right _ _), ?_⟩
        rw [heq, bytesBetween_append (hle'.trans hold.lsn_le)]
  | capture h o hh ready htail hcleanup hgeneration =>
    obtain rfl : timeline' = timeline := hcontinues
    have hold := hcounted h hh
    rintro h' ⟨⟩
    by_cases ho : o.failed
    · rw [if_pos ho]
      exact hold.keep (List.prefix_refl _) rfl rfl rfl hsame
    · rw [if_neg ho]
      refine ⟨hold.lsn_le, hold.root_le, hold.bytes, ?_⟩
      -- the capture notes the counter as it is
      rintro job ⟨⟩
      exact ⟨hold.root_le, le_rfl, hold.bytes⟩
  | captureFailed h left hh ready htail hcleanup hgeneration =>
    obtain rfl : timeline' = timeline := hcontinues
    rintro h' ⟨⟩
    exact (hcounted h hh).keep (List.prefix_refl _) rfl rfl rfl hsame
  | writeTable h job file hh hjob hbuilt hgeneration hfresh =>
    obtain rfl : timeline' = timeline := hcontinues
    exact hcounted
  | build h job root hh hjob hbuilt hgeneration hlsn hdecode hsize hfiles hdenotes =>
    obtain rfl : timeline' = timeline := hcontinues
    rintro h' ⟨⟩
    refine (hcounted h hh).keep (List.prefix_refl _) rfl rfl rfl ?_
    rintro job' ⟨⟩
    exact ⟨job, hjob, rfl, rfl⟩
  | install h job root o hh ready hjob hbuilt =>
    obtain rfl : timeline' = timeline := hcontinues
    have hold := hcounted h hh
    rintro h' ⟨⟩
    by_cases ho : o.failed
    · rw [if_pos ho]
      refine hold.keep (List.prefix_refl _) rfl rfl rfl ?_
      rintro job' ⟨⟩
    · rw [if_neg ho]
      obtain ⟨hle, hle', heq⟩ := hold.job job hjob
      have hroot : root.lsn = job.lsn :=
        (((hinv.handle h hh).job ready job hjob).built root hbuilt).2.1
      refine ⟨hold.lsn_le, hroot.le.trans hle', ?_, ?_⟩
      · dsimp only
        rw [hold.bytes, heq, hroot, ← bytesBetween_add hle hle' hold.lsn_le,
          Nat.add_sub_cancel_left]
      · rintro job' ⟨⟩
  | abandon h job hh hjob =>
    obtain rfl : timeline' = timeline := hcontinues
    rintro h' ⟨⟩
    refine (hcounted h hh).keep (List.prefix_refl _) rfl rfl rfl ?_
    rintro job' ⟨⟩
  | removeSegment h previous n hh hcleanup hn =>
    obtain rfl : timeline' = timeline := hcontinues
    exact hcounted
  | removeCatalog h previous n hh hcleanup hn =>
    obtain rfl : timeline' = timeline := hcontinues
    exact hcounted
  | removeTable h previous id hh hcleanup hid =>
    obtain rfl : timeline' = timeline := hcontinues
    exact hcounted
  | cleanupDone h hh =>
    obtain rfl : timeline' = timeline := hcontinues
    rintro h' ⟨⟩
    exact (hcounted h hh).keep (List.prefix_refl _) rfl rfl rfl hsame
  | crash length hlength =>
    rintro h' ⟨⟩
  | reopen o state hh hopen hstate =>
    obtain rfl : timeline' = timeline := hcontinues
    rintro h' ⟨⟩
    obtain ⟨o', -, -, hopen', hroot, -, hfloor, -, -, hlsn, -, -, hreplayed, -⟩ := hinv.exists_open
    obtain rfl : o = o' := Except.ok.inj (hopen.symm.trans hopen')
    have hmem : o.root ∈ L.roots := by
      obtain ⟨t, ht, hf⟩ := Log.mem_roots.mp hroot
      exact Log.mem_roots.mpr ⟨t, hinv.stored.sublist.subset ht, hf⟩
    have hfit := hfits o hopen
    rw [hinv.stored.uncheckpointed_eq hmem hfloor] at hfit
    have hle : o.root.lsn ≤ o.lsn := hlsn ▸ hinv.stored.sound.lsn_le hmem
    have hbytes : o.walBytes = bytesBetween timeline' o.root.lsn o.lsn := by
      rw [openWithOptions_counts hopen, hreplayed, replayedBytes_numbered]
      rw [hlsn, bytesBetween, List.take_length] at hfit ⊢
      exact min_eq_left hfit
    refine ⟨hlsn.le, hle, hbytes, ?_⟩
    rintro job ⟨⟩

/-- A step other than a reopening raises the counter to the limit at most. -/
theorem Step.walBytes_le (hstep : Step S limits s a s') (hfits : FitsStep s a)
    (hreopen : a ≠ .reopen) {bound : ℕ} (hlimit : limits.maxUncheckpointedWalBytes ≤ bound)
    (hbound : ∀ h, s.handle = some h → h.walBytes ≤ bound) :
    ∀ h', s'.handle = some h' → h'.walBytes ≤ bound := by
  cases hstep with
  | commit h payloads state o hh ready hstate hsize hlsn hwithin =>
    rintro h' ⟨⟩
    by_cases ho : o.failed
    · rw [if_pos ho]
      exact hbound h hh
    · rw [if_neg ho]
      have hfit := hfits h hh
      rw [saturatingAdd, min_eq_left hfit] at hwithin
      exact (wrappingAdd_of_le hfit).le.trans (hwithin.trans hlimit)
  | capture h o hh ready htail hcleanup hgeneration =>
    rintro h' ⟨⟩
    by_cases ho : o.failed
    · rw [if_pos ho]
      exact hbound h hh
    · rw [if_neg ho]
      exact hbound h hh
  | captureFailed h left hh ready htail hcleanup hgeneration =>
    rintro h' ⟨⟩
    exact hbound h hh
  | writeTable h job file hh hjob hbuilt hgeneration hfresh => exact hbound
  | build h job root hh hjob hbuilt hgeneration hlsn hdecode hsize hfiles hdenotes =>
    rintro h' ⟨⟩
    exact hbound h hh
  | install h job root o hh ready hjob hbuilt =>
    rintro h' ⟨⟩
    by_cases ho : o.failed
    · rw [if_pos ho]
      exact hbound h hh
    · rw [if_neg ho]
      exact (Nat.sub_le _ _).trans (hbound h hh)
  | abandon h job hh hjob =>
    rintro h' ⟨⟩
    exact hbound h hh
  | removeSegment h previous n hh hcleanup hn => exact hbound
  | removeCatalog h previous n hh hcleanup hn => exact hbound
  | removeTable h previous id hh hcleanup hid => exact hbound
  | cleanupDone h hh =>
    rintro h' ⟨⟩
    exact hbound h hh
  | crash length hlength =>
    rintro h' ⟨⟩
  | reopen o state hh hopen hstate => exact absurd rfl hreopen

end Counted

/-! ### Sessions -/

variable (S)

/-- **The runs of a database that may be opened under other limits each time**: the limits it was
opened with last, and its counter then. -/
inductive Session (condition : System S → Action → Prop) : WalLimits → ℕ → System S → Prop
  | initial (limits : WalLimits) : Session condition limits 0 (System.initial S)
  | step {limits : WalLimits} {opened : ℕ} {s s' : System S} {a : Action}
      (hs : Session condition limits opened s) (hcond : condition s a) (hreopen : a ≠ .reopen)
      (hstep : Step S limits s a s') : Session condition limits opened s'
  | reopen {limits limits' : WalLimits} {opened : ℕ} {s s' : System S} {h : Handle S}
      (hs : Session condition limits opened s) (hcond : condition s .reopen)
      (hstep : Step S limits' s .reopen s') (hh : s'.handle = some h) :
      Session condition limits' h.walBytes s'

variable {S} {limits : WalLimits} {opened : ℕ} {s : System S}

/-- **In every session the counter is right**, and not above the limit but for what it was when
the database was opened. -/
theorem Session.counted (hs : Session S FitsStep limits opened s) :
    (∃ L P timeline floor, Inv False s L P timeline floor ∧
      ∀ h, s.handle = some h → h.Counted timeline) ∧
    ∀ h, s.handle = some h → h.walBytes ≤ max limits.maxUncheckpointedWalBytes opened := by
  have hcounts {limits : WalLimits} {s s' : System S} {a : Action}
      (ih : ∃ L P timeline floor, Inv False s L P timeline floor ∧
        ∀ h, s.handle = some h → h.Counted timeline)
      (hfits : FitsStep s a) (hstep : Step S limits s a s') :
      ∃ L P timeline floor, Inv False s' L P timeline floor ∧
        ∀ h, s'.handle = some h → h.Counted timeline := by
    obtain ⟨L, P, timeline, floor, hinv, hcounted⟩ := ih
    obtain ⟨L', P', timeline', floor', hinv', hcontinues⟩ := hinv.step hstep fun h => h.elim
    exact ⟨L', P', timeline', floor', hinv',
      hinv.counted_step hcounted hstep hcontinues hfits⟩
  induction hs with
  | initial limits =>
    refine ⟨⟨_, _, _, _, Inv.initial False, ?_⟩, ?_⟩
    · rintro h ⟨⟩
    · rintro h ⟨⟩
  | step hs hfits hreopen hstep ih =>
    exact ⟨hcounts ih.1 hfits hstep,
      hstep.walBytes_le hfits hreopen (le_max_left _ _) ih.2⟩
  | @reopen limits limits' opened s s' h hs hfits hstep hh ih =>
    refine ⟨hcounts ih.1 hfits hstep, fun h' hh' => ?_⟩
    obtain rfl : h = h' := Option.some.inj (hh.symm.trans hh')
    exact le_max_right _ _

end EveDB
