import EveDB.Builder.Deliveries
import Mathlib.Data.Finset.Card

/-!
# Built indexes are routed

What is delivered to the three indexes of a table may be interleaved in any way: a step on one
index leaves the others alone (`Indexes.Apart`), so each keeps the state its own deliveries give
it (`Indexes.Delivering`). As long as every index is delivered to in order, nothing is refused
unless there are more partitions than the limit (`Indexes.partitions`), and what is finished routes
exactly the entries that were delivered, through the partitions that were built as through those
that were taken over (`Indexes.buildTables_transparent`).
-/

namespace EveDB

open Store Index

open Std (ExtTreeMap)

namespace Indexes

section Delivered

variable {i j : Fin 3} {d : Delivery} {steps more : List (Fin 3 × Delivery)}

theorem delivered_append : delivered i (steps ++ more) = delivered i steps ++ delivered i more := by
  rw [delivered, List.filter_append, List.map_append]
  rfl

theorem delivered_singleton_self : delivered i [(i, d)] = [d] := by
  rw [delivered, List.filter_cons_of_pos (by rw [decide_eq_true_eq])]
  rfl

theorem delivered_singleton_of_ne (hne : j ≠ i) : delivered j [(i, d)] = [] := by
  rw [delivered, List.filter_cons_of_neg (by rw [decide_eq_true_eq]; exact hne.symm)]
  rfl

theorem mem_delivered (h : d ∈ delivered i steps) : (i, d) ∈ steps := by
  obtain ⟨step, hstep, rfl⟩ := List.mem_map.mp h
  obtain ⟨hmem, hi⟩ := List.mem_filter.mp hstep
  rw [← of_decide_eq_true hi]
  exact hmem

end Delivered

/-- **The partitions that deliveries make**, or take over: one for each bucket. -/
def partitions (table : ℕ) (steps : List (Fin 3 × Delivery)) : List Route :=
  steps.map fun step => (table, kind step.1, step.2.bucket (kind step.1))

/-- The partitions of all tables. -/
def allPartitions (tables : List (ℕ × List (Fin 3 × Delivery))) : List Route :=
  tables.flatMap fun t => partitions t.1 t.2

/-- The partitions there are of the indexes: the complete ones, and those being built. -/
def begun (ix : Indexes) : List Route :=
  ix.parts.keys ++ (List.finRange 3).filterMap fun i => (ix.lanes i).pending.map Pending.route

theorem length_begun (ix : Indexes) : ix.begun.length = ix.parts.size + ix.pendingCount := by
  rw [begun, List.length_append, ExtTreeMap.length_keys, List.length_filterMap_eq_countP,
    pendingCount]
  simp only [Option.isSome_map]

/-- **What an engine delivers**: to each index in order, and what a delivery can be. -/
structure Orderly (disk : Disk) (shows : Partition → List Entry) (table : ℕ)
    (steps : List (Fin 3 × Delivery)) : Prop where
  ordered : ∀ i, (delivered i steps).Pairwise (Delivery.Before (kind i))
  sound : ∀ i, ∀ d ∈ delivered i steps, d.Sound disk shows table (kind i)

/-- **What there is of the indexes** of a table after these deliveries. -/
structure Delivering (disk : Disk) (shows : Partition → List Entry) (start ix : Indexes)
    (steps : List (Fin 3 × Delivery)) : Prop where
  limit : ix.limit = start.limit
  table : ix.table = start.table
  generation : ix.generation = start.generation
  lsn : ix.lsn = start.lsn
  lanes : ∀ i, ∃ old opened, LaneState disk shows ix i (delivered i steps) old opened
  tables : ∀ route ∈ ix.parts, route.1 = ix.table
  routes : ∀ route ∈ ix.parts, ∃ i lower, route = ix.route i lower

section Runs

variable {disk : Disk} {shows : Partition → List Entry} {start ix : Indexes}
  {done steps : List (Fin 3 × Delivery)} {i : Fin 3} {d : Delivery}

/-- Nothing has been delivered to new indexes. -/
theorem delivering_new (disk : Disk) (shows : Partition → List Entry)
    (table generation lsn limit : ℕ) :
    Delivering disk shows (.new table generation lsn limit) (.new table generation lsn limit)
      [] where
  limit := rfl
  table := rfl
  generation := rfl
  lsn := rfl
  lanes i := by
    refine ⟨[], [], (Nat.zero_mul pageSize).symm, fun _ => ⟨rfl, rfl⟩, ?_, List.forall_mem_nil _,
      ?_, ?_, ?_⟩
    · intro pending hpending
      cases hpending
    · intro lower part hpart
      rw [Indexes.new, ExtTreeMap.getElem?_empty] at hpart
      cases hpart
    · intro lower hlower
      exact absurd hlower ExtTreeMap.not_mem_empty
    · exact List.forall_mem_nil _
  tables route hroute := absurd hroute ExtTreeMap.not_mem_empty
  routes route hroute := absurd hroute ExtTreeMap.not_mem_empty

/-- **Where there is no room**, there are more partitions than the limit. -/
theorem Delivering.lt_card (h : Delivering disk shows start ix done)
    (hsound : ∀ j, ∀ d ∈ delivered j done, d.Sound disk shows ix.table (kind j))
    (hcrowded : Crowded ix i (delivered i done) (d.bucket (kind i))) :
    start.limit < (partitions start.table (done ++ [(i, d)])).toFinset.card := by
  obtain ⟨ix', hapart, hbegun, hidle, hnew, hfull⟩ := hcrowded.begun
  have hall (j : Fin 3) : Begun ix' j (delivered j done) := by
    by_cases hj : j = i
    · exact hj ▸ hbegun
    · obtain ⟨old, opened, hlane⟩ := h.lanes j
      exact (hlane.of_apart hapart hj).begun (hapart.table ▸ hsound j)
  have hdelivered {j : Fin 3} {d' : Delivery} (hd' : d' ∈ delivered j done) :
      ix'.route j (d'.bucket (kind j)) ∈ partitions start.table (done ++ [(i, d)]) := by
    rw [Indexes.route, hapart.table, h.table]
    exact List.mem_map.mpr ⟨(j, d'), List.mem_append_left _ (mem_delivered hd'), rfl⟩
  have hopen {r : Route} (hr : r ∈ (List.finRange 3).filterMap fun j =>
      (ix'.lanes j).pending.map Pending.route) :
      r ∉ ix'.parts ∧ ∃ j ≠ i, ∃ d' ∈ delivered j done, r = ix'.route j (d'.bucket (kind j)) := by
    obtain ⟨j, -, hpending⟩ := List.mem_filterMap.mp hr
    obtain ⟨pending, hopened, rfl⟩ := Option.map_eq_some_iff.mp hpending
    obtain ⟨hfresh, d', hd', hroute⟩ := (hall j).busy pending hopened
    refine ⟨hfresh, j, ?_, d', hd', hroute⟩
    rintro rfl
    rw [hidle] at hopened
    cases hopened
  -- what has been begun and the new partition are different ones
  have hnodup : (ix'.route i (d.bucket (kind i)) :: ix'.begun).Nodup := by
    refine List.nodup_cons.mpr ⟨fun hmem => ?_, ?_⟩
    · rcases List.mem_append.mp hmem with hmem | hmem
      · exact hnew (ExtTreeMap.mem_keys.mp hmem)
      · obtain ⟨-, j, hj, d', -, hroute⟩ := hopen hmem
        exact route_ne hj.symm _ _ hroute
    · refine ExtTreeMap.nodup_keys.append ?_ fun r hleft hright =>
        (hopen hright).1 (ExtTreeMap.mem_keys.mp hleft)
      refine (List.nodup_finRange 3).filterMap fun j j' r hj hj' => ?_
      obtain ⟨pending, hpending, rfl⟩ := Option.map_eq_some_iff.mp hj
      obtain ⟨pending', hpending', hsame⟩ := Option.map_eq_some_iff.mp hj'
      obtain ⟨-, d', -, hroute⟩ := (hall j).busy pending hpending
      obtain ⟨-, d'', -, hroute'⟩ := (hall j').busy pending' hpending'
      by_contra hne
      exact route_ne hne _ _ (hroute.symm.trans (hsame.symm.trans hroute'))
  have hsub : ∀ r ∈ ix'.route i (d.bucket (kind i)) :: ix'.begun,
      r ∈ partitions start.table (done ++ [(i, d)]) := by
    refine List.forall_mem_cons.mpr ⟨?_, fun r hr => ?_⟩
    · rw [Indexes.route, hapart.table, h.table]
      exact List.mem_map.mpr ⟨(i, d), List.mem_append_right _ (List.mem_singleton_self _), rfl⟩
    · rcases List.mem_append.mp hr with hr | hr
      · obtain ⟨j, lower, rfl⟩ := hapart.routes h.routes r (ExtTreeMap.mem_keys.mp hr)
        obtain ⟨d', hd', rfl⟩ := (hall j).parts lower (ExtTreeMap.mem_keys.mp hr)
        exact hdelivered hd'
      · obtain ⟨-, j, -, d', hd', rfl⟩ := hopen hr
        exact hdelivered hd'
  calc start.limit = ix'.limit := (hapart.limit.trans h.limit).symm
    _ ≤ ix'.begun.length := hfull.trans_eq (length_begun ix').symm
    _ < (ix'.route i (d.bucket (kind i)) :: ix'.begun).length := Nat.lt_succ_self _
    _ = (ix'.route i (d.bucket (kind i)) :: ix'.begun).toFinset.card :=
      (List.toFinset_card_of_nodup hnodup).symm
    _ ≤ _ := Finset.card_le_card fun r hr =>
      List.mem_toFinset.mpr (hsub r (List.mem_toFinset.mp hr))

/-- **One delivery**, to whichever index, fails for the limit only. -/
theorem Delivering.deliver (h : Delivering disk shows start ix done) (hlsn : start.lsn < 2 ^ 64)
    (horderly : Orderly disk shows start.table (done ++ [(i, d)]))
    (hnew : disk (start.file i) = none) :
    (ix.deliver disk i d = .error (.limitExceeded "index partitions" start.limit) ∧
        start.limit < (partitions start.table (done ++ [(i, d)])).toFinset.card) ∨
      ∃ ix', ix.deliver disk i d = .ok ix' ∧
        Delivering disk shows start ix' (done ++ [(i, d)]) := by
  obtain ⟨old, opened, hlane⟩ := h.lanes i
  have hds : delivered i (done ++ [(i, d)]) = delivered i done ++ [d] := by
    rw [delivered_append, delivered_singleton_self]
  have hordered := horderly.ordered i
  have hsound := horderly.sound i
  rw [hds] at hordered hsound
  rw [← h.table] at hsound
  have hcame : ∀ d₀ ∈ delivered i done, d₀.Sound disk shows ix.table (kind i) := fun d₀ hd₀ =>
    hsound d₀ (List.mem_append_left _ hd₀)
  have hdelivery := hsound d (List.mem_append_right _ (List.mem_singleton_self d))
  have hbefore : ∀ d₀ ∈ delivered i done, d₀.Before (kind i) d := fun d₀ hd₀ =>
    (List.pairwise_append.mp hordered).2.2 d₀ hd₀ d (List.mem_singleton_self d)
  have hfile : ix.file i = start.file i := by rw [file, h.table, h.generation, ← file]
  have hcame' (j : Fin 3) : ∀ d₀ ∈ delivered j done, d₀.Sound disk shows ix.table (kind j) := by
    intro d₀ hd₀
    rw [h.table]
    refine horderly.sound j d₀ ?_
    rw [delivered_append]
    exact List.mem_append_left _ hd₀
  have hstep : (ix.deliver disk i d = .error (.limitExceeded "index partitions" ix.limit) ∧
        Crowded ix i (delivered i done) (d.bucket (kind i))) ∨
      ∃ ix' old' opened', ix.deliver disk i d = .ok ix' ∧ Apart i ix ix' ∧
        LaneState disk shows ix' i (delivered i done ++ [d]) old' opened' := by
    rw [← h.lsn] at hlsn
    cases d with
    | entry key value dependency =>
      exact hlane.append hlsn hcame hdelivery hbefore (by rw [hfile, hnew])
    | reuse root lower part =>
      refine (hlane.reuse hlsn hcame hdelivery hbefore).imp id ?_
      rintro ⟨ix', old', hok, hapart, hlane'⟩
      exact ⟨ix', old', [], hok, hapart, hlane'⟩
  rcases hstep with ⟨herror, hcrowded⟩ | ⟨ix', old', opened', hok, hapart, hlane'⟩
  · exact Or.inl ⟨h.limit ▸ herror, h.lt_card hcame' hcrowded⟩
  · refine Or.inr ⟨ix', hok, hapart.limit.trans h.limit, hapart.table.trans h.table,
      hapart.generation.trans h.generation, hapart.lsn.trans h.lsn, fun j => ?_,
      hapart.tables h.tables, hapart.routes h.routes⟩
    by_cases hj : j = i
    · subst hj
      exact ⟨old', opened', hds ▸ hlane'⟩
    · obtain ⟨oldj, openedj, hlanej⟩ := h.lanes j
      rw [delivered_append, delivered_singleton_of_ne hj, List.append_nil]
      exact ⟨oldj, openedj, hlanej.of_apart hapart hj⟩

/-- **A run of deliveries**, interleaved in any way, fails for the limit only. -/
theorem Delivering.deliverAll (h : Delivering disk shows start ix done)
    (hlsn : start.lsn < 2 ^ 64) (horderly : Orderly disk shows start.table (done ++ steps))
    (hnew : ∀ i, disk (start.file i) = none) :
    (Indexes.deliverAll disk steps ix =
        .error (.limitExceeded "index partitions" start.limit) ∧
        start.limit < (partitions start.table (done ++ steps)).toFinset.card) ∨
      ∃ ix', Indexes.deliverAll disk steps ix = .ok ix' ∧
        Delivering disk shows start ix' (done ++ steps) := by
  induction steps generalizing ix done with
  | nil => exact Or.inr ⟨ix, rfl, by rwa [List.append_nil]⟩
  | cons step steps ih =>
    obtain ⟨i, d⟩ := step
    rw [List.append_cons] at horderly ⊢
    have hfront : Orderly disk shows start.table (done ++ [(i, d)]) := by
      refine ⟨fun j => ?_, fun j => ?_⟩
      · have hordered := horderly.ordered j
        rw [delivered_append] at hordered
        exact (List.pairwise_append.mp hordered).1
      · have hsound := horderly.sound j
        rw [delivered_append] at hsound
        exact (List.forall_mem_append.mp hsound).1
    rw [Indexes.deliverAll]
    rcases h.deliver hlsn hfront (hnew i) with ⟨herror, hlt⟩ | ⟨ix', hok, h'⟩
    · rw [herror]
      refine Or.inl ⟨rfl, hlt.trans_le (Finset.card_le_card fun r hr => ?_)⟩
      rw [List.mem_toFinset, partitions] at hr ⊢
      rw [List.map_append]
      exact List.mem_append_left _ hr
    · rw [hok, ok_bind]
      exact ih h' horderly

/-! ### Finishing -/

/-- **The other indexes** stay idle. -/
theorem Idle.of_apart {ix' : Indexes} {j : Fin 3} {ds : List Delivery} {old : Bytes}
    (h : Idle disk shows ix j ds old) (hapart : Apart i ix ix') (hne : j ≠ i) :
    Idle disk shows ix' j ds old := by
  have hlane := hapart.lanes j hne
  refine ⟨?_, ?_, ?_, ?_, ?_⟩
  · rw [hlane]
    exact h.length
  · rw [hlane]
    exact h.pending
  · rw [hlane]
    exact h.handle
  · intro lower part hpart
    rw [hapart.route, hapart.parts j hne] at hpart
    refine (h.parts lower part hpart).imp id fun hbuilt => ?_
    exact ⟨by rw [hapart.file, hbuilt.file], hbuilt.holds, hbuilt.ascending, hbuilt.bucket,
      hbuilt.first, hbuilt.last, hbuilt.translate, hbuilt.slots⟩
  · intro e he
    have hmem := h.covered e he
    rw [hapart.route, ExtTreeMap.mem_iff_isSome_getElem?, hapart.parts j hne,
      ← ExtTreeMap.mem_iff_isSome_getElem?]
    exact hmem

/-- **What there is when everything is finished.** -/
structure Finished (disk : Disk) (shows : Partition → List Entry) (start ix : Indexes)
    (steps : List (Fin 3 × Delivery)) : Prop where
  table : ix.table = start.table
  generation : ix.generation = start.generation
  lanes : ∀ i, ∃ old, Idle disk shows ix i (delivered i steps) old
  tables : ∀ route ∈ ix.parts, route.1 = ix.table
  came : ∀ route ∈ ix.parts, route ∈ partitions start.table steps

/-- **Finishing** completes the open partition of every index. -/
theorem Delivering.finish (h : Delivering disk shows start ix steps) (hlsn : start.lsn < 2 ^ 64)
    (horderly : Orderly disk shows start.table steps) :
    ∃ ix' files, ix.finish = .ok (files, ix'.parts, ix'.built) ∧
      Finished disk shows start ix' steps := by
  have hsound (i : Fin 3) : ∀ d ∈ delivered i steps, d.Sound disk shows ix.table (kind i) := by
    rw [h.table]
    exact horderly.sound i
  rw [← h.lsn] at hlsn
  obtain ⟨old₀, opened₀, hlane₀⟩ := h.lanes 0
  obtain ⟨old₁, opened₁, hlane₁⟩ := h.lanes 1
  obtain ⟨old₂, opened₂, hlane₂⟩ := h.lanes 2
  obtain ⟨ix₀, old₀', hflush₀, hapart₀, hidle₀, -⟩ := hlane₀.flush hlsn (hsound 0)
  replace hlane₁ := hlane₁.of_apart hapart₀ (by decide)
  replace hlane₂ := hlane₂.of_apart hapart₀ (by decide)
  obtain ⟨ix₁, old₁', hflush₁, hapart₁, hidle₁, -⟩ :=
    hlane₁.flush (hapart₀.lsn ▸ hlsn) (hapart₀.table ▸ hsound 1)
  replace hidle₀ := hidle₀.of_apart hapart₁ (by decide)
  replace hlane₂ := hlane₂.of_apart hapart₁ (by decide)
  have hapart := hapart₁.lsn.trans hapart₀.lsn
  have htable := hapart₁.table.trans hapart₀.table
  obtain ⟨ix₂, old₂', hflush₂, hapart₂, hidle₂, -⟩ :=
    hlane₂.flush (hapart ▸ hlsn) (htable ▸ hsound 2)
  replace hidle₀ := hidle₀.of_apart hapart₂ (by decide)
  replace hidle₁ := hidle₁.of_apart hapart₂ (by decide)
  have hidle (i : Fin 3) : ∃ old, Idle disk shows ix₂ i (delivered i steps) old := by
    match i with
    | 0 => exact ⟨old₀', hidle₀⟩
    | 1 => exact ⟨old₁', hidle₁⟩
    | 2 => exact ⟨old₂', hidle₂⟩
  have htable₂ := hapart₂.table.trans htable
  rw [Indexes.finish, hflush₀, ok_bind, hflush₁, ok_bind, hflush₂, ok_bind]
  refine ⟨ix₂, _, rfl, htable₂.trans h.table, ?_, hidle,
    hapart₂.tables (hapart₁.tables (hapart₀.tables h.tables)), fun route hroute => ?_⟩
  · rw [hapart₂.generation, hapart₁.generation, hapart₀.generation, h.generation]
  · obtain ⟨i, lower, rfl⟩ :=
      hapart₂.routes (hapart₁.routes (hapart₀.routes h.routes)) route hroute
    obtain ⟨old, hi⟩ := hidle i
    obtain ⟨d, hd, rfl⟩ := (hi.begun (htable₂ ▸ hsound i)).parts lower hroute
    rw [Indexes.route, htable₂, h.table]
    exact List.mem_map.mpr ⟨(i, d), mem_delivered hd, rfl⟩

end Runs

/-! ### The written directory -/

section Written

variable {disk disk' : Disk} {shows : Partition → List Entry}

/-- A file without a page has no tree. -/
theorem not_answers_nil {lsn base : ℕ} {entries : List Entry} :
    ¬ IndexWriter.Answers [] lsn base entries := by
  intro h
  have hpage : ∃ e, pageAt [] base = .error e := by
    rw [pageAt]
    split
    · exact ⟨_, rfl⟩
    · refine ⟨_, dif_neg (Nat.not_le.mpr ?_)⟩
      exact Nat.lt_of_lt_of_le (by decide : 0 < pageSize) (Nat.le_add_left _ _)
  obtain ⟨e, hpage⟩ := hpage
  have hlookup := h.lookup (0, 0)
  rw [lookupAt, descend, if_neg (by decide), readNode, hpage] at hlookup
  cases hlookup

/-- What a partition shows it shows in a directory with more files. -/
theorem shows_extend {part : Partition} {k : ℕ} {lower : Key} {entries : List Entry}
    (h : part.Shows disk k lower entries)
    (hextends : ∀ file bytes, disk file = some bytes → disk' file = some bytes) :
    part.Shows disk' k lower entries := by
  obtain ⟨stored, bytes, hdisk, hrest⟩ := h.stored
  exact ⟨⟨stored, bytes, hextends _ _ hdisk, hrest⟩, h.ascending, h.bucket, h.first, h.last,
    h.kind, h.slots⟩

/-- **A partition that was built shows its entries** once its file is in the directory. -/
theorem Built.to_shows {ix : Indexes} {i : Fin 3} {bytes : Bytes} {lower : Key} {part : Partition}
    {entries : List Entry} (h : Built ix i bytes lower part entries)
    (hdisk : disk (ix.file i) = some bytes) (hlen : bytes.length ≤ maxU64) :
    part.Shows disk (kind i) lower entries := by
  have hshown : ∀ e ∈ entries, part.shownEntry e = e := by
    intro e he
    rw [Partition.shownEntry, h.translate e he]
    rfl
  have hanswers := h.holds [] rfl (by rwa [List.append_nil])
  rw [List.append_nil] at hanswers
  refine ⟨⟨entries, bytes, by rw [h.file, hdisk], hanswers, ?_, fun e he => ?_⟩, h.ascending,
    h.bucket, h.first, h.last, ?_, h.slots⟩
  · rw [List.map_congr_left hshown, List.map_id']
  · rw [hshown e he]
    exact h.translate e he
  · rw [h.file]
    rfl

/-- **What is delivered in order** is a sorted list. -/
theorem delivered_ascending {k table : ℕ} {ds : List Delivery}
    (hordered : ds.Pairwise (Delivery.Before k))
    (hsound : ∀ d ∈ ds, d.Sound disk shows table k) :
    SortedList.Ascending order (ds.flatMap (·.entries shows)) := by
  have hbucket : ∀ d ∈ ds, ∀ e ∈ d.entries shows, bucket k e.1 = d.bucket k :=
    fun d hd e he => Delivery.Sound.bucket_eq (hsound d hd) he
  refine List.pairwise_flatMap.mpr ⟨fun d hd => ?_, ?_⟩
  · cases d with
    | entry key value dependency => exact List.pairwise_singleton _ _
    | reuse root lower part => exact (hsound _ hd).shows.ascending
  · refine hordered.imp_of_mem fun {d d'} hd hd' hbefore e he e' he' => ?_
    have hbuckets : toLex (d.bucket k) < toLex (d'.bucket k) → order e < order e' := by
      intro hlt
      refine (monotone_bucketOf k).reflect_lt ?_
      rw [← hbucket d hd e he, ← hbucket d' hd' e' he'] at hlt
      exact hlt
    match d, d', hbefore with
    | .entry _ _ _, .entry _ _ _, h =>
      obtain rfl := List.mem_singleton.mp he
      obtain rfl := List.mem_singleton.mp he'
      exact h
    | .entry _ _ _, .reuse _ _ _, h => exact hbuckets h
    | .reuse _ _ _, .entry _ _ _, h => exact hbuckets h
    | .reuse _ _ _, .reuse _ _ _, h => exact hbuckets h

theorem mem_built {ix : Indexes} {i : Fin 3} {bytes : Bytes}
    (h : (ix.lanes i).handle = some bytes) : (ix.file i, bytes) ∈ ix.built := by
  rw [Indexes.built, List.mem_filterMap]
  exact ⟨i, List.mem_finRange i, by rw [h]; rfl⟩

/-- **An index that is done with routes what was delivered to it.** -/
theorem Idle.routed {ix : Indexes} {i : Fin 3} {ds : List Delivery} {old : Bytes}
    (h : Idle disk shows ix i ds old) (hordered : ds.Pairwise (Delivery.Before (kind i)))
    (hsound : ∀ d ∈ ds, d.Sound disk shows ix.table (kind i))
    (hextends : ∀ file bytes, disk file = some bytes → disk' file = some bytes)
    (hwritten : ∀ written ∈ ix.built,
      disk' written.1 = some written.2 ∧ written.2.length ≤ maxU64)
    {root : Root} (hroot : ∀ route : Route, route.1 = ix.table →
      root.partitions[route]? = ix.parts[route]?) :
    Routed root disk' ix.table (kind i) (ds.flatMap (·.entries shows)) := by
  refine ⟨delivered_ascending hordered hsound, ?_, ?_⟩
  · intro lower part hpart
    rw [hroot _ rfl] at hpart
    rcases h.parts lower part hpart with hshows | hbuilt
    · exact shows_extend hshows hextends
    · cases hhandle : (ix.lanes i).handle with
      | some bytes =>
        obtain rfl : bytes = old := by
          rw [← h.handle, hhandle]
          rfl
        obtain ⟨hdisk, hlen⟩ := hwritten _ (mem_built hhandle)
        exact hbuilt.to_shows hdisk hlen
      | none =>
        -- nothing was built without a file
        obtain rfl : [] = old := by
          rw [← h.handle, hhandle]
          rfl
        have hanswers := hbuilt.holds [] rfl (Nat.zero_le _)
        exact absurd hanswers not_answers_nil
  · intro e he
    have hmem : ((ix.table, kind i, bucket (kind i) e.1) : Route) ∈ ix.parts := h.covered e he
    rw [ExtTreeMap.mem_iff_isSome_getElem?] at hmem ⊢
    rwa [hroot _ rfl]

/-- **The finished partitions route what was delivered.** -/
theorem Finished.routed {start ix : Indexes} {steps : List (Fin 3 × Delivery)}
    (h : Finished disk shows start ix steps) (horderly : Orderly disk shows start.table steps)
    (hextends : ∀ file bytes, disk file = some bytes → disk' file = some bytes)
    (hwritten : ∀ written ∈ ix.built,
      disk' written.1 = some written.2 ∧ written.2.length ≤ maxU64)
    {root : Root} (hroot : ∀ route : Route, route.1 = start.table →
      root.partitions[route]? = ix.parts[route]?) (i : Fin 3) :
    Routed root disk' start.table (kind i) ((delivered i steps).flatMap (·.entries shows)) := by
  obtain ⟨old, hidle⟩ := h.lanes i
  have hsound := horderly.sound i
  rw [← h.table] at hsound hroot ⊢
  exact hidle.routed (horderly.ordered i) hsound hextends hwritten hroot

end Written

/-! ### All tables -/

/-- **One table of the next manifest**: what was built for it, where that is written, and that
the manifest has its partitions. -/
structure TableBuilt (disk : Disk) (shows : Partition → List Entry) (generation lsn : ℕ)
    (parts : SortedMap Route Partition) (written : List (FileId × Bytes)) (table : ℕ)
    (steps : List (Fin 3 × Delivery)) : Prop where
  built : ∃ limit ix, Finished disk shows (.new table generation lsn limit) ix steps ∧
    (∀ file ∈ ix.built, file ∈ written) ∧
    ∀ route : Route, route.1 = table → parts[route]? = ix.parts[route]?

section Tables

variable {disk : Disk} {shows : Partition → List Entry} {generation lsn limit : ℕ}
  {tables : List (ℕ × List (Fin 3 × Delivery))} {parts : SortedMap Route Partition}

theorem mem_built_iff {ix : Indexes} {file : FileId × Bytes} :
    file ∈ ix.built ↔ ∃ i, (ix.lanes i).handle = some file.2 ∧ ix.file i = file.1 := by
  rw [Indexes.built, List.mem_filterMap]
  constructor
  · rintro ⟨i, -, hfile⟩
    obtain ⟨bytes, hhandle, rfl⟩ := Option.map_eq_some_iff.mp hfile
    exact ⟨i, hhandle, rfl⟩
  · rintro ⟨i, hhandle, hfile⟩
    exact ⟨i, List.mem_finRange i, by rw [hhandle, hfile]; rfl⟩

/-- An index has a file of its own. -/
theorem nodup_built (ix : Indexes) : (ix.built.map Prod.fst).Nodup := by
  rw [Indexes.built, List.map_filterMap]
  refine (List.nodup_finRange 3).filterMap fun i j file hi hj => ?_
  have hfile {i : Fin 3} (h : file ∈ ((ix.lanes i).handle.map fun bytes =>
      (ix.file i, bytes)).map Prod.fst) : file = ix.file i := by
    obtain ⟨bytes, -, rfl⟩ := Option.map_eq_some_iff.mp (Option.map_map .. ▸ h)
    rfl
  exact Fin.ext (Nat.add_right_cancel (congrArg FileId.kind ((hfile hi).symm.trans (hfile hj))))

theorem TableBuilt.mono {parts : SortedMap Route Partition} {written more : List (FileId × Bytes)}
    {table : ℕ} {steps : List (Fin 3 × Delivery)}
    (h : TableBuilt disk shows generation lsn parts written table steps)
    (hmore : ∀ file ∈ written, file ∈ more) :
    TableBuilt disk shows generation lsn parts more table steps := by
  obtain ⟨limit, ix, hfinished, hbuilt, hparts⟩ := h.built
  exact ⟨limit, ix, hfinished, fun file hfile => hmore file (hbuilt file hfile), hparts⟩

/-- **All tables** are built, unless there are more partitions than the limit. -/
theorem buildTables_built (hlsn : lsn < 2 ^ 64) (hdistinct : (tables.map Prod.fst).Nodup)
    (horderly : ∀ t ∈ tables, Orderly disk shows t.1 t.2)
    (hnew : ∀ t ∈ tables, ∀ i, disk ⟨t.1, generation, kind i, 0⟩ = none)
    (hfree : ∀ route ∈ parts, route.1 ∉ tables.map Prod.fst) :
    (∃ limit' ≤ limit, buildTables disk generation lsn limit tables parts =
        .error (.limitExceeded "index partitions" limit') ∧
        limit < (parts.keys ++ allPartitions tables).toFinset.card) ∨
      ∃ parts' written, buildTables disk generation lsn limit tables parts =
          .ok (parts', written) ∧
        (∀ route : Route, route.1 ∉ tables.map Prod.fst → parts'[route]? = parts[route]?) ∧
        (∀ file ∈ written, ∃ t ∈ tables, ∃ i, file.1 = ⟨t.1, generation, kind i, 0⟩) ∧
        (written.map Prod.fst).Nodup ∧
        ∀ t ∈ tables, TableBuilt disk shows generation lsn parts' written t.1 t.2 := by
  induction tables generalizing parts with
  | nil => exact Or.inr ⟨parts, [], rfl, fun _ _ => rfl, List.forall_mem_nil _, List.nodup_nil,
      List.forall_mem_nil _⟩
  | cons t tables ih =>
    obtain ⟨table, steps⟩ := t
    obtain ⟨horder, horders⟩ := List.forall_mem_cons.mp horderly
    obtain ⟨hfresh, hfreshs⟩ := List.forall_mem_cons.mp hnew
    rw [List.map_cons, List.nodup_cons] at hdistinct
    have hstart := delivering_new disk shows table generation lsn (limit - parts.size)
    rw [buildTables]
    rcases hstart.deliverAll hlsn horder hfresh with ⟨herror, hlt⟩ | ⟨ix, hok, h⟩
    · rw [herror]
      refine Or.inl ⟨_, Nat.sub_le _ _, rfl, ?_⟩
      -- no partition of this table was there before
      have hdisjoint : Disjoint parts.keys.toFinset (partitions table steps).toFinset := by
        refine Finset.disjoint_left.mpr fun r hr hr' => ?_
        obtain ⟨step, -, rfl⟩ := List.mem_map.mp (List.mem_toFinset.mp hr')
        exact hfree _ (ExtTreeMap.mem_keys.mp (List.mem_toFinset.mp hr)) List.mem_cons_self
      have hkeys : parts.keys.toFinset.card = parts.size := by
        rw [List.toFinset_card_of_nodup ExtTreeMap.nodup_keys, ExtTreeMap.length_keys]
      have hlt' : limit - parts.size < (partitions table steps).toFinset.card := hlt
      calc limit < parts.size + (partitions table steps).toFinset.card := by omega
        _ = (parts.keys ++ partitions table steps).toFinset.card := by
          rw [List.toFinset_append, Finset.card_union_of_disjoint hdisjoint, hkeys]
        _ ≤ _ := Finset.card_le_card fun r hr => by
          rw [List.mem_toFinset] at hr ⊢
          exact (List.mem_append.mp hr).elim (List.mem_append_left _) fun hr =>
            List.mem_append_right _ (List.mem_append_left _ hr)
    obtain ⟨ix', files, hfinish, hfinished⟩ := h.finish hlsn horder
    have htable : ∀ route ∈ ix'.parts, route.1 = table := fun route hroute =>
      (hfinished.tables route hroute).trans hfinished.table
    have hget (route : Route) : (parts.insertMany ix'.parts.toList)[route]? =
        (ix'.parts[route]?).or parts[route]? := SortedMap.getElem?_insertMany_toList _ _ _
    have hfree' : ∀ route ∈ parts.insertMany ix'.parts.toList, route.1 ∉ tables.map Prod.fst := by
      intro route hroute hmem
      rw [ExtTreeMap.mem_iff_isSome_getElem?, hget, Option.isSome_or, Bool.or_eq_true,
        ← ExtTreeMap.mem_iff_isSome_getElem?, ← ExtTreeMap.mem_iff_isSome_getElem?] at hroute
      rcases hroute with hroute | hroute
      · exact hdistinct.1 (htable route hroute ▸ hmem)
      · exact hfree route hroute (List.mem_cons_of_mem _ hmem)
    rw [hok, ok_bind, hfinish, ok_bind]
    dsimp only
    rcases ih hdistinct.2 horders hfreshs hfree' with ⟨limit', hle, herror, hlt⟩ |
      ⟨parts', written, hok', hkept, hfiles, hnodup, hbuilt⟩
    · rw [herror]
      refine Or.inl ⟨limit', hle, rfl, hlt.trans_le (Finset.card_le_card fun r hr => ?_)⟩
      rw [List.mem_toFinset] at hr ⊢
      rcases List.mem_append.mp hr with hr | hr
      · rw [ExtTreeMap.mem_keys, ExtTreeMap.mem_iff_isSome_getElem?, hget, Option.isSome_or,
          Bool.or_eq_true, ← ExtTreeMap.mem_iff_isSome_getElem?,
          ← ExtTreeMap.mem_iff_isSome_getElem?] at hr
        rcases hr with hr | hr
        · exact List.mem_append_right _ (List.mem_append_left _ (hfinished.came r hr))
        · exact List.mem_append_left _ (ExtTreeMap.mem_keys.mpr hr)
      · exact List.mem_append_right _ (List.mem_append_right _ hr)
    rw [hok', ok_bind]
    have hfile : ∀ file ∈ ix'.built, ∃ i, file.1 = ⟨table, generation, kind i, 0⟩ := by
      intro file hfile
      obtain ⟨i, -, hid⟩ := mem_built_iff.mp hfile
      refine ⟨i, ?_⟩
      rw [← hid, Indexes.file, hfinished.table, hfinished.generation]
      rfl
    refine Or.inr ⟨parts', ix'.built ++ written, rfl, fun route hroute => ?_, ?_, ?_, ?_⟩
    · obtain ⟨hne, hroute⟩ := not_or.mp (List.mem_cons.not.mp hroute)
      have hnone : ix'.parts[route]? = none :=
        ExtTreeMap.getElem?_eq_none fun hmem => hne (htable route hmem)
      rw [hkept route hroute, hget, hnone, Option.none_or]
    · refine List.forall_mem_append.mpr ⟨fun file hmem => ?_, fun file hmem => ?_⟩
      · exact ⟨(table, steps), List.mem_cons_self, hfile file hmem⟩
      · obtain ⟨t, ht, hid⟩ := hfiles file hmem
        exact ⟨t, List.mem_cons_of_mem _ ht, hid⟩
    · rw [List.map_append]
      refine (nodup_built ix').append hnodup fun id hleft hright => ?_
      obtain ⟨file, hmem, rfl⟩ := List.mem_map.mp hleft
      obtain ⟨file', hmem', hsame⟩ := List.mem_map.mp hright
      obtain ⟨i, hid⟩ := hfile file hmem
      obtain ⟨t, ht, j, hid'⟩ := hfiles file' hmem'
      rw [hid, hid'] at hsame
      have hsame' : t.1 = table := congrArg FileId.table hsame
      exact hdistinct.1 (List.mem_map.mpr ⟨t, ht, hsame'⟩)
    · refine List.forall_mem_cons.mpr ⟨⟨_, ix', hfinished, fun file hmem =>
        List.mem_append_left _ hmem, fun route hroute => ?_⟩, fun t ht => ?_⟩
      · obtain rfl : route.1 = table := hroute
        have hnone : parts[route]? = none := ExtTreeMap.getElem?_eq_none fun hmem =>
          hfree route hmem List.mem_cons_self
        rw [hkept route hdistinct.1, hget, hnone, Option.or_none]
      · exact (hbuilt t ht).mono fun file hmem => List.mem_append_right _ hmem

/-- **A table that was built is routed** through the manifest with its partitions. -/
theorem TableBuilt.routed {written : List (FileId × Bytes)} {table : ℕ}
    {steps : List (Fin 3 × Delivery)}
    (h : TableBuilt disk shows generation lsn parts written table steps)
    (horderly : Orderly disk shows table steps)
    (hnew : ∀ t ∈ tables, ∀ i, disk ⟨t.1, generation, kind i, 0⟩ = none)
    (hfiles : ∀ file ∈ written, ∃ t ∈ tables, ∃ i, file.1 = ⟨t.1, generation, kind i, 0⟩)
    (hnodup : (written.map Prod.fst).Nodup) (hsize : ∀ file ∈ written, file.2.length ≤ maxU64)
    {root : Root} (hroot : root.partitions = parts) (i : Fin 3) :
    Routed root (disk.write written) table (kind i)
      ((delivered i steps).flatMap (·.entries shows)) := by
  obtain ⟨limit', ix, hfinished, hmem, hparts⟩ := h.built
  refine hfinished.routed horderly (fun file bytes hfile => ?_) (fun file hfile => ?_)
    (fun route hroute => ?_) i
  · rw [Disk.write_of_ne, hfile]
    rintro other hother rfl
    obtain ⟨t', ht', j, hid⟩ := hfiles other hother
    rw [hid, hnew t' ht' j] at hfile
    cases hfile
  · exact ⟨Disk.write_of_mem hnodup (hmem file hfile), hsize file (hmem file hfile)⟩
  · rw [hroot]
    exact hparts route hroute

/-- **Partition routing is transparent.** Whatever is delivered to the indexes of the tables, each
in the order of its keys, as entries or as whole partitions of earlier manifests: unless there are
more partitions than the limit the manifest is built, and through it every index of every table is
read as one sorted list of what was delivered, the locators of reused primary partitions translated
to the slots of this manifest. -/
theorem buildTables_transparent (hlsn : lsn < 2 ^ 64) (hdistinct : (tables.map Prod.fst).Nodup)
    (horderly : ∀ t ∈ tables, Orderly disk shows t.1 t.2)
    (hnew : ∀ t ∈ tables, ∀ i, disk ⟨t.1, generation, kind i, 0⟩ = none) :
    (∃ limit' ≤ limit, buildTables disk generation lsn limit tables ∅ =
        .error (.limitExceeded "index partitions" limit') ∧
        limit < (allPartitions tables).toFinset.card) ∨
      ∃ parts written, buildTables disk generation lsn limit tables ∅ = .ok (parts, written) ∧
        ((∀ file ∈ written, file.2.length ≤ maxU64) → ∀ root : Root, root.partitions = parts →
          ∀ t ∈ tables, ∀ i, Transparent root (disk.write written) t.1 (kind i)
            ((delivered i t.2).flatMap (·.entries shows))) := by
  have hall := @buildTables_built disk shows generation lsn limit tables ∅ hlsn hdistinct
    horderly hnew (fun route hroute => absurd hroute ExtTreeMap.not_mem_empty)
  rcases hall with ⟨limit', hle, herror, hlt⟩ | ⟨parts, written, hok, -, hfiles, hnodup, hbuilt⟩
  · exact Or.inl ⟨limit', hle, herror, hlt⟩
  refine Or.inr ⟨parts, written, hok, fun hsize root hroot t ht i => ?_⟩
  exact ((hbuilt t ht).routed (horderly t ht) hnew hfiles hnodup hsize hroot i).transparent

end Tables

/-! ### A partition that is taken over -/

section Run

/-- The writer of a partition with one entry. -/
def singleWriter (lsn : ℕ) (entry : Entry) : IndexWriter :=
  { IndexWriter.fromFile [] lsn 0 with leaf := [entry], previous := some entry.1, count := 1 }

/-- Its file has two pages. -/
theorem length_singleWriter (lsn : ℕ) (entry : Entry) :
    (singleWriter lsn entry).finishPart.length ≤ maxU64 := by
  rw [IndexWriter.finishPart, Buffer.length_write, IndexWriter.flushLeaf_eq (List.cons_ne_nil _ _),
    IndexWriter.writeLevels, if_neg (by exact Nat.lt_irrefl 1)]
  simp only [singleWriter, IndexWriter.fromFile, List.length_append, List.length_replicate,
    List.length_nil, (checksummed _).2]
  decide

/-- The entry of an entity, in slot 1. -/
def firstEntry : Entry := ((7, 0), (locate 1 16, locate 1 32))

/-- The entry of an entity in the next partition, in slot 1 of the next manifest. -/
def secondEntry : Entry := ((2000, 0), (locate 1 48, locate 1 64))

/-- What is delivered for the first one. -/
def firstSteps : List (Fin 3 × Delivery) :=
  [(primaryIndex, .entry firstEntry.1 firstEntry.2 none)]

/-- The directory behind the first build. -/
def firstDisk : Disk :=
  Disk.write (fun _ => none) [(⟨1, 1, 3, 0⟩, (singleWriter 5 firstEntry).finishPart)]

/-- A manifest with these partitions, whose last generation is in slot 1. -/
def firstManifest (parts : SortedMap Route Partition) : Root :=
  { Root.empty with
    generation := 1
    lsn := 5
    generations := [⟨0, 0⟩, ⟨1, 5⟩]
    partitions := parts
    files := [⟨1, 1, 3, 0, 16384, 0⟩] }

/-- What is delivered to the next manifest: the partition of the first one, and another entry. -/
def secondSteps (root : Root) (part : Partition) : List (Fin 3 × Delivery) :=
  [(primaryIndex, .reuse root (0, 0) part),
    (primaryIndex, .entry secondEntry.1 secondEntry.2 none)]

theorem orderly_firstSteps : Orderly (fun _ => none) (fun _ => []) 1 firstSteps := by
  have hself : delivered 0 firstSteps = [.entry firstEntry.1 firstEntry.2 none] :=
    delivered_singleton_self
  have hother {i : Fin 3} (hi : i ≠ 0) : delivered i firstSteps = [] :=
    delivered_singleton_of_ne hi
  refine ⟨fun i => ?_, fun i => ?_⟩
  · by_cases hi : i = 0
    · rw [hi, hself]
      exact List.pairwise_singleton _ _
    · rw [hother hi]
      exact List.Pairwise.nil
  · by_cases hi : i = 0
    · rw [hi, hself]
      exact List.forall_mem_singleton.mpr
        ⟨⟨by decide, by decide⟩, ⟨by decide, by decide⟩, fun _ => ⟨1, rfl⟩⟩
    · rw [hother hi]
      exact List.forall_mem_nil _

/-- The partition with the first entry. -/
def firstPart : Partition where
  file := ⟨1, 1, 3, 0⟩
  lsn := 5
  base := 0
  first := (7, 0)
  last := (7, 0)
  slots := (∅ : BTreeMap ℕ).insert 1 1
  dependencies := ∅

/-- The same with its entries in slot 0, to which their generation moves as generation 0 is
absorbed. -/
def carriedPart : Partition :=
  { firstPart with
    slots := firstPart.slots.map fun _ slot => (newSlot [none, some 0] slot).getD 0 }

theorem exists_firstBuild : ∃ parts : SortedMap Route Partition,
    buildTables (fun _ => none) 1 5 8 [(1, firstSteps)] ∅ =
        .ok (parts, [(⟨1, 1, 3, 0⟩, (singleWriter 5 firstEntry).finishPart)]) ∧
      parts[((1, 3, (0, 0)) : Route)]? = some firstPart :=
  ⟨_, rfl, rfl⟩

theorem exists_secondBuild (root : Root) (hfiles : root.files = [⟨1, 1, 3, 0, 16384, 0⟩]) :
    ∃ parts, buildTables firstDisk 2 9 8 [(1, secondSteps root carriedPart)] ∅ =
      .ok (parts, [(⟨1, 2, 3, 0⟩, (singleWriter 9 secondEntry).finishPart)]) := by
  cases root
  cases hfiles
  exact ⟨_, rfl⟩

/-- A partition with one entity is taken over by the next manifest, which has another one with
another entity: both are found, the first one in the slot its generation has moved to. -/
theorem buildTables_transparent_reused : ∃ (root : Root)
    (parts : SortedMap Route Partition) (written : List (FileId × Bytes)),
    root.generations = [⟨0, 0⟩, ⟨1, 5⟩] ∧
      buildTables firstDisk 2 9 8 [(1, secondSteps root carriedPart)] ∅ = .ok (parts, written) ∧
      ∀ next : Root, next.partitions = parts →
        next.lookupIndex (firstDisk.write written) 1 3 (7, 0) =
            .ok (some (locate 0 16, locate 0 32)) ∧
          next.lookupIndex (firstDisk.write written) 1 3 (2000, 0) =
            .ok (some (locate 1 48, locate 1 64)) := by
  obtain ⟨parts, hbuild, hpart⟩ := exists_firstBuild
  have hnone : ∀ t ∈ [(1, firstSteps)], ∀ i, (fun _ => none : Disk) ⟨t.1, 1, kind i, 0⟩ = none :=
    fun _ _ _ => rfl
  -- the partition shows the entry
  have hshows : firstPart.Shows firstDisk 3 (0, 0) [firstEntry] := by
    have hall := @buildTables_built (fun _ => none) (fun _ => []) 1 5 8 [(1, firstSteps)] ∅
      (by decide) (List.nodup_singleton _) (List.forall_mem_singleton.mpr orderly_firstSteps) hnone
      (fun route hroute => absurd hroute ExtTreeMap.not_mem_empty)
    rcases hall with ⟨limit', -, herror, -⟩ | ⟨parts', written, hok, -, hfiles, hnodup, hbuilt⟩
    · cases hbuild.symm.trans herror
    · obtain ⟨rfl, rfl⟩ := Prod.mk.inj (Except.ok.inj (hbuild.symm.trans hok))
      have hrouted := (hbuilt _ (List.mem_singleton_self _)).routed orderly_firstSteps hnone hfiles
        hnodup (List.forall_mem_singleton.mpr (length_singleWriter 5 firstEntry))
        (show (firstManifest parts).partitions = parts from rfl) 0
      exact hrouted.shows (0, 0) firstPart hpart
  have hself : delivered 0 (secondSteps (firstManifest parts) carriedPart) =
      [.reuse (firstManifest parts) (0, 0) carriedPart,
        .entry secondEntry.1 secondEntry.2 none] := rfl
  have hother {i : Fin 3} (hi : i ≠ 0) :
      delivered i (secondSteps (firstManifest parts) carriedPart) = [] := by
    have hsplit : secondSteps (firstManifest parts) carriedPart =
        [(0, .reuse (firstManifest parts) (0, 0) carriedPart)] ++
          [(0, .entry secondEntry.1 secondEntry.2 none)] := rfl
    rw [hsplit, delivered_append, delivered_singleton_of_ne hi, delivered_singleton_of_ne hi]
    rfl
  have horderly : Orderly firstDisk (fun _ => [((7, 0), (locate 0 16, locate 0 32))]) 1
      (secondSteps (firstManifest parts) carriedPart) := by
    refine ⟨fun i => ?_, fun i => ?_⟩
    · by_cases hi : i = 0
      · rw [hi, hself]
        exact List.pairwise_pair.mpr
          (Prod.Lex.toLex_lt_toLex.mpr (Or.inl (show 0 < 1024 by decide)))
      · rw [hother hi]
        exact List.Pairwise.nil
    · by_cases hi : i = 0
      · rw [hi, hself]
        refine List.forall_mem_cons.mpr ⟨⟨⟨_, List.mem_singleton_self _, rfl⟩,
          (∅ : SortedSet ℕ).insert 0, 2, 9, [⟨1, 5⟩, ⟨2, 9⟩], [none, some 0], firstPart,
          [firstEntry],
          rfl, hpart, hshows, rfl, rfl⟩, List.forall_mem_singleton.mpr
            ⟨⟨by decide, by decide⟩, ⟨by decide, by decide⟩, fun _ => ⟨1, rfl⟩⟩⟩
      · rw [hother hi]
        exact List.forall_mem_nil _
  have hnew : ∀ t ∈ [(1, secondSteps (firstManifest parts) carriedPart)], ∀ i,
      firstDisk ⟨t.1, 2, kind i, 0⟩ = none := by
    refine List.forall_mem_singleton.mpr fun i => Disk.write_of_ne ?_
    refine List.forall_mem_singleton.mpr fun heq => ?_
    cases congrArg FileId.generation heq
  obtain ⟨parts₂, hsecond⟩ := exists_secondBuild (firstManifest parts) rfl
  have hdistinct : ([(1, secondSteps (firstManifest parts) carriedPart)].map Prod.fst).Nodup :=
    List.nodup_singleton 1
  rcases @buildTables_transparent firstDisk _ 2 9 8 _ (by decide) hdistinct
    (List.forall_mem_singleton.mpr horderly) hnew with ⟨limit', -, herror, -⟩ |
    ⟨parts', written, hok, hall⟩
  · cases hsecond.symm.trans herror
  · obtain ⟨rfl, rfl⟩ := Prod.mk.inj (Except.ok.inj (hsecond.symm.trans hok))
    refine ⟨firstManifest parts, parts₂, _, rfl, hsecond, fun next hnext => ?_⟩
    have htransparent := hall (List.forall_mem_singleton.mpr (length_singleWriter 9 secondEntry))
      next hnext _ (List.mem_singleton_self _) 0
    exact ⟨htransparent.lookup (7, 0), htransparent.lookup (2000, 0)⟩

end Run

end Indexes

end EveDB
