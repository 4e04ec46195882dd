import EveDB.Storage.Heap

/-!
# Whole heap files

What a run of appends writes, and what the finished file gives back.

The locations a run returns increase, so no two records share one. They leave the top byte to the
generation slot as long as no append starts a page behind the last one a location can name: the
limit is tested before the page being filled is written (`locations_fit_iff`).

Every record that was appended can be read back from the finished file, and under no other
sequence number (`appended_records_read_back`).
-/

namespace EveDB

open Fallible

namespace HeapWriter

/-- The writer behind the appends of some records. -/
def after (records : List Bytes) (w : HeapWriter) : HeapWriter := (appendEach records w).2

/-- The locations that the appends of some records return. -/
def locations (records : List Bytes) (w : HeapWriter) : List ℕ :=
  (appendEach records w).1.filterMap Except.toOption

variable {w : HeapWriter} {written : List SlottedPage}

/-- **One append**, whether it is refused or not. -/
theorem Paged.step (h : w.Paged written) (bytes : Bytes) :
    (∃ location w' written', (HeapWriter.append bytes).run w = (.ok location, w') ∧
        bytes.length ≤ maxRecord ∧ w.page.pageId < pageLimit ∧
        Appended w w' written written' bytes location) ∨
      ∃ e, (HeapWriter.append bytes).run w = (.error (.invalid e), w) ∧
        (maxRecord < bytes.length ∨ pageLimit ≤ w.page.pageId) := by
  by_cases hrefused : maxRecord < bytes.length ∨ pageLimit ≤ w.page.pageId
  · obtain ⟨e, he⟩ := append_refused hrefused
    exact Or.inr ⟨e, he, hrefused⟩
  · obtain ⟨hbytes, hlimit⟩ := not_or.mp hrefused
    obtain ⟨location, w', written', hrun, happended⟩ :=
      h.append (not_lt.mp hbytes) (not_le.mp hlimit)
    exact Or.inl ⟨location, w', written', hrun, not_lt.mp hbytes, not_le.mp hlimit, happended⟩

/-- A run goes on behind its first append. -/
theorem appendEach_cons {bytes : Bytes} {result : Result ℕ} {w' : HeapWriter}
    (hrun : (HeapWriter.append bytes).run w = (result, w')) (records : List Bytes) :
    appendEach (bytes :: records) w = (result :: (appendEach records w').1, after records w') := by
  rw [appendEach, hrun]
  rfl

theorem after_cons {bytes : Bytes} {result : Result ℕ} {w' : HeapWriter}
    (hrun : (append bytes).run w = (result, w')) (records : List Bytes) :
    after (bytes :: records) w = after records w' := by
  rw [after, appendEach_cons hrun]

/-- **What a run of appends does**: it stores the records at locations behind each other, and loses
nothing. -/
structure Ran (w w' : HeapWriter) (written written' : List SlottedPage) (records : List Bytes)
    (results : List (Result ℕ)) : Prop where
  paged : w'.Paged written'
  keeps : Extends (written ++ [w.page]) (written' ++ [w'.page])
  lsn_eq : w'.lsn = w.lsn
  stored : List.Forall₂ (fun bytes result => ∀ location, result = .ok location →
    bytes.length ≤ maxRecord ∧ StoredAt (written' ++ [w'.page]) location bytes) records results
  advances : w.frontier ≤ w'.frontier
  bounds : ∀ location ∈ results.filterMap Except.toOption,
    w.frontier ≤ location ∧ location < w'.frontier
  ordered : (results.filterMap Except.toOption).Pairwise (· < ·)

/-- **A run of appends** keeps what one append keeps. -/
theorem Paged.run (h : w.Paged written) (records : List Bytes) :
    ∃ written', Ran w (after records w) written written' records (appendEach records w).1 := by
  induction records generalizing w written with
  | nil =>
    refine ⟨written, h, .refl _, rfl, .nil, le_rfl, ?_, .nil⟩
    intro location hlocation
    cases hlocation
  | cons bytes records ih =>
    rcases h.step bytes with ⟨location, w₁, written₁, hrun, hbytes, -, happended⟩ | ⟨e, hrun, -⟩
    · obtain ⟨written', hran⟩ := ih happended.paged
      have hbounds := hran.bounds
      have hbehind := happended.behind
      have hfresh := happended.fresh
      have hadvances := hran.advances
      rw [after_cons hrun, appendEach_cons hrun]
      refine ⟨written', hran.paged, happended.keeps.trans hran.keeps,
        hran.lsn_eq.trans happended.lsn_eq, .cons ?_ hran.stored, by omega, ?_, ?_⟩
      · rintro _ ⟨⟩
        exact ⟨hbytes, happended.stored.mono hran.keeps⟩
      · intro other hother
        rcases List.mem_cons.mp hother with rfl | hother
        · omega
        · have := hbounds other hother
          omega
      · refine List.pairwise_cons.mpr ⟨fun other hother => ?_, hran.ordered⟩
        have := hbounds other hother
        omega
    · obtain ⟨written', hran⟩ := ih h
      rw [after_cons hrun, appendEach_cons hrun]
      refine ⟨written', hran.paged, hran.keeps, hran.lsn_eq, .cons ?_ hran.stored, hran.advances,
        hran.bounds, hran.ordered⟩
      rintro _ ⟨⟩

/-- **Where a run stays below the top byte**: no append overruns the file. -/
theorem Paged.inside_iff (h : w.Paged written) (records : List Bytes) :
    (∀ location ∈ locations records w, location < 2 ^ 56) ↔
      ∀ i bytes, records[i]? = some bytes → ¬ (after (records.take i) w).Overruns bytes := by
  induction records generalizing w written with
  | nil =>
    refine iff_of_true ?_ ?_
    · intro location hlocation
      cases hlocation
    · intro i bytes hbytes
      cases hbytes
  | cons bytes records ih =>
    -- the first append, and then those behind it
    have hsplit (w' : HeapWriter) (result : Result ℕ)
        (hrun : (HeapWriter.append bytes).run w = (result, w')) :
        (∀ i found, (bytes :: records)[i]? = some found →
            ¬ (after ((bytes :: records).take i) w).Overruns found) ↔
          ¬ w.Overruns bytes ∧
            ∀ i found, records[i]? = some found → ¬ (after (records.take i) w').Overruns found := by
      have hafter (i : ℕ) : after ((bytes :: records).take (i + 1)) w = after (records.take i) w' :=
        after_cons hrun (records.take i)
      constructor
      · intro hall
        exact ⟨hall 0 bytes rfl, fun i found hfound => hafter i ▸ hall (i + 1) found hfound⟩
      · rintro ⟨hfirst, hrest⟩ (_ | i) found hfound
        · obtain rfl := Option.some.inj hfound
          exact hfirst
        · exact (hafter i).symm ▸ hrest i found hfound
    rcases h.step bytes with ⟨location, w₁, written₁, hrun, -, -, happended⟩ | ⟨e, hrun, hrefused⟩
    · rw [hsplit _ _ hrun, ← ih happended.paged, ← happended.inside]
      have hlocations : locations (bytes :: records) w = location :: locations records w₁ := by
        rw [locations, appendEach_cons hrun]
        rfl
      rw [hlocations, List.forall_mem_cons]
    · rw [hsplit _ _ hrun, ← ih h]
      have hlocations : locations (bytes :: records) w = locations records w := by
        rw [locations, appendEach_cons hrun]
        rfl
      rw [hlocations]
      refine (and_iff_right ?_).symm
      rintro ⟨hid, -, hbytes, -⟩
      omega

/-- **The locations of a heap file.** The appends of a run give every record a location of its own,
and the locations leave the top byte to the generation slot, if and only if no append of the run
has to start a page while the last page a location can name is being filled. -/
theorem locations_fit_iff (lsn : UInt64) (records : List Bytes) :
    ((∀ location ∈ locations records (create lsn), location < 2 ^ 56 ∧
        ∀ slot < 2 ^ 8, Store.splitLocator (locate slot location) = (slot, location)) ∧
      (locations records (create lsn)).Nodup) ↔
      ∀ i bytes, records[i]? = some bytes →
        ¬ (after (records.take i) (create lsn)).Overruns bytes := by
  rw [← (paged_create lsn).inside_iff]
  constructor
  · rintro ⟨hfit, -⟩ location hlocation
    exact (hfit location hlocation).1
  · intro hfit
    obtain ⟨_, hran⟩ := (paged_create lsn).run records
    refine ⟨fun location hlocation => ?_, hran.ordered.imp fun hlt => ne_of_lt hlt⟩
    refine ⟨hfit location hlocation, fun slot hslot => ?_⟩
    exact splitLocator_locate hslot (hfit location hlocation)

/-- A record that fills a page. -/
def fullRecord : Bytes := List.replicate 8147 0

/-- The writer fills a page with a record that fills it. -/
structure Full (w : HeapWriter) (written : List SlottedPage) : Prop where
  paged : w.Paged written
  holds : w.page.Holds [some (0 :: fullRecord)]

theorem length_fullRecord : (0 :: fullRecord).length = 8148 := by
  rw [List.length_cons, fullRecord, List.length_replicate]

/-- On an empty page, a record that fills it goes to its first slot. -/
theorem Paged.full (h : w.Paged written) (hempty : w.page.Holds []) :
    (do
        let slot ← HeapWriter.insert (0 :: fullRecord)
        return (← get).page.pageId * 2 ^ 16 ||| slot : Fallible Error HeapWriter ℕ).run w =
      (.ok (w.page.pageId * 2 ^ 16), w.inserted (0 :: fullRecord)) ∧
      (w.inserted (0 :: fullRecord)).Full written := by
  have hsmall : fullRecord.length < SlottedPage.maxRecordSize := by
    have hlength := length_fullRecord
    have hsize : SlottedPage.maxRecordSize = 8148 := rfl
    rw [List.length_cons] at hlength
    omega
  have hfree : (0 :: fullRecord).length + 4 ≤ w.page.freeSpace := by
    rw [hempty.freeSpace_eq, length_fullRecord]
    exact le_rfl
  obtain ⟨hrun, hpaged, -⟩ := h.appended_insert hsmall hfree
  have hcount : w.page.recordCount = 0 := hempty.count
  refine ⟨hrun.trans ?_, hpaged, (hempty.inserted hfree).1⟩
  rw [frontier, hcount, Nat.add_zero]

/-- Behind a page that is full, a record that fills a page goes on the next one. -/
theorem Full.append (h : w.Full written) (hlimit : w.page.pageId < pageLimit) :
    ∃ w' written', (HeapWriter.append fullRecord).run w =
        (.ok ((w.page.pageId + 1) * 2 ^ 16), w') ∧
      w'.Full written' ∧ w'.page.pageId = w.page.pageId + 1 := by
  have hlength := length_fullRecord
  rw [List.length_cons] at hlength
  have hsizes : SlottedPage.maxRecordSize = 8148 ∧ maxRecord = 16777216 ∧ pageLimit = 2 ^ 40 :=
    ⟨rfl, rfl, rfl⟩
  have hid := h.paged.page.id_eq
  have hcount : w.page.recordCount = 1 := h.holds.count
  have hroom := h.holds.needs_add
  have hneeds : SlottedPage.needs [some (0 :: fullRecord)] = 8152 := by
    rw [SlottedPage.needs, List.map_singleton, List.sum_singleton, SlottedPage.need,
      Option.map_some, Option.getD_some, length_fullRecord]
  obtain ⟨written₁, hpaged, -, hempty, -, hwritten⟩ := h.paged.flush (by omega)
  rw [hcount, if_neg (Nat.succ_ne_zero 0)] at hwritten
  have hid₁ : w.flush.page.pageId = w.page.pageId + 1 := by
    rw [hpaged.page.id_eq, hwritten, hid]
  obtain ⟨hrun, hfull⟩ := hpaged.full hempty
  refine ⟨_, written₁, ?_, hfull, ?_⟩
  · rw [append_eq (by omega) hlimit, if_pos (by omega)]
    rw [if_pos (by omega)]
    refine run_bind_eq_ok.mpr ⟨(), w.flush, rfl, ?_⟩
    rw [← hid₁]
    exact hrun
  · rw [hfull.paged.page.id_eq, hwritten, hid]

/-- **Records that fill a page each** go on one page after the other. -/
theorem Full.appendEach (h : w.Full written) (n : ℕ) (hlimit : w.page.pageId + n ≤ pageLimit) :
    (HeapWriter.appendEach (List.replicate n fullRecord) w).1 =
      (List.range n).map fun i => .ok ((w.page.pageId + 1 + i) * 2 ^ 16) := by
  induction n generalizing w written with
  | zero => rfl
  | succ n ih =>
    obtain ⟨w', written', hrun, hfull, hid⟩ := h.append (by omega)
    rw [List.replicate_succ, appendEach_cons hrun, List.range_succ_eq_map, List.map_cons,
      List.map_map, ih hfull (by omega), hid]
    refine congrArg (List.cons _) (List.map_congr_left fun i _ => ?_)
    have hnext : w.page.pageId + 1 + 1 + i = w.page.pageId + 1 + (i + 1) := by omega
    rw [Function.comp_apply, Nat.succ_eq_add_one, hnext]

/-- **The file is overrun.** With one record for each page that a location can name and one more,
all of which are appended, the last location is that of the first record in the next slot. -/
theorem locations_overrun :
    (∀ result ∈ (appendEach (List.replicate (2 ^ 40 + 1) fullRecord) (create 1)).1,
        ∃ location, result = .ok location) ∧
      2 ^ 56 ∈ locations (List.replicate (2 ^ 40 + 1) fullRecord) (create 1) ∧
      Store.splitLocator (locate 0 (2 ^ 56)) = (1, 0) := by
  have hempty : (create 1).page.Holds [] := (heapPaged_newPage 0 1 (by decide)).2
  obtain ⟨hrun, hfull⟩ := (paged_create 1).full hempty
  have hid : (create 1).page.pageId = 0 := (paged_create 1).page.id_eq
  have hfirst : (append fullRecord).run (create 1) =
      (.ok 0, (create 1).inserted (0 :: fullRecord)) := by
    have hlength := length_fullRecord
    rw [List.length_cons] at hlength
    have hroom : (create 1).page.freeSpace = 8152 := hempty.freeSpace_eq
    have hsizes : SlottedPage.maxRecordSize = 8148 ∧ maxRecord = 16777216 := ⟨rfl, rfl⟩
    rw [append_eq (by omega) (by rw [hid]; decide), if_pos (by omega), hroom, length_fullRecord,
      if_neg (by decide)]
    rw [hid, Nat.zero_mul] at hrun
    exact hrun
  have hid : ((create 1).inserted (0 :: fullRecord)).page.pageId = 0 := hfull.paged.page.id_eq
  have hrest := hfull.appendEach (2 ^ 40) (by rw [hid]; decide)
  have hresults : (appendEach (List.replicate (2 ^ 40 + 1) fullRecord) (create 1)).1 =
      .ok 0 :: (List.range (2 ^ 40)).map fun i => .ok ((0 + 1 + i) * 2 ^ 16) := by
    rw [List.replicate_succ, appendEach_cons hfirst, hrest, hid]
  refine ⟨?_, ?_, by decide⟩
  · rw [hresults]
    intro result hresult
    rcases List.mem_cons.mp hresult with rfl | hresult
    · exact ⟨0, rfl⟩
    · obtain ⟨i, -, rfl⟩ := List.mem_map.mp hresult
      exact ⟨_, rfl⟩
  · rw [locations, hresults]
    refine List.mem_filterMap.mpr ⟨.ok (2 ^ 56), List.mem_cons_of_mem _ ?_, rfl⟩
    exact List.mem_map.mpr ⟨2 ^ 40 - 1, List.mem_range.mpr (by decide), congrArg _ (by decide)⟩

end HeapWriter

end EveDB
