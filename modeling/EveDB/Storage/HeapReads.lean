import EveDB.Storage.HeapFiles

/-!
# Reading a heap file back

Every page of a finished file decodes to the page that was written (`Sealed.heapPage`). A record
on one page is read from its slot; one in fragments is put together again, fragment by fragment,
since their headers agree and their lengths add up to the length of the record
(`Sealed.readChain`).
-/

namespace EveDB

open Fallible

/-- **A file of finished pages.** -/
structure Sealed (lsn : UInt64) (pages : List SlottedPage) : Prop where
  paged : ∀ id page, pages[id]? = some page → HeapPaged lsn id page
  few : pages.length ≤ 2 ^ 50

/-- The bytes of a file of pages. -/
def joinedPages (pages : List SlottedPage) : Bytes := (pages.map SlottedPage.bytes).flatten

/-- Files whose heap pages in one file are those of some bytes. -/
def Store.Files.withHeap (files : Store.Files) (fileId : FileId) (file : Bytes) :
    Store.Files :=
  { files with page := Function.update files.page fileId (heapPage file) }

theorem length_joinedPages (pages : List SlottedPage) :
    (joinedPages pages).length = pages.length * pageSize := by
  induction pages with
  | nil => rfl
  | cons page pages ih =>
    rw [joinedPages, List.map_cons, List.flatten_cons, List.length_append, page.size]
    rw [joinedPages] at ih
    rw [ih, List.length_cons, Nat.succ_mul, Nat.add_comm]

/-- The bytes of a page are where its number says. -/
theorem slice_joinedPages {pages : List SlottedPage} {id : ℕ} {page : SlottedPage}
    (h : pages[id]? = some page) :
    Buffer.slice (joinedPages pages) (id * pageSize) pageSize = page.bytes := by
  obtain ⟨hlt, rfl⟩ := List.getElem?_eq_some_iff.mp h
  have hsplit : joinedPages pages =
      joinedPages (pages.take id) ++ (pages[id].bytes ++ joinedPages (pages.drop (id + 1))) := by
    conv_lhs => rw [← List.take_append_drop id pages, List.drop_eq_getElem_cons hlt]
    simp only [joinedPages, List.map_append, List.map_cons, List.flatten_append, List.flatten_cons]
  have hfront : (joinedPages (pages.take id)).length = id * pageSize := by
    rw [length_joinedPages, List.length_take_of_le hlt.le]
  rw [Buffer.slice, hsplit, List.drop_left' hfront, List.take_left' pages[id].size]

theorem decode_u32 {v : ℕ} (h : v < 2 ^ 32) : LittleEndian.decode (Encoder.u32 v) = v :=
  LittleEndian.decode_encode_of_lt h

section Fragment

variable (total index count : ℕ) (chunk : Bytes)

theorem length_fragment : (fragment total index count chunk).length = 13 + chunk.length := by
  simp only [fragment, List.length_cons, List.length_append, Encoder.length_u32]
  omega

theorem head?_fragment : (fragment total index count chunk).head? = some 1 := rfl

/-- The header of a fragment, behind its first byte. -/
theorem header_fragment : ((fragment total index count chunk).drop 1).take 12 =
    Encoder.u32 total ++ (Encoder.u32 index ++ Encoder.u32 count) := by
  rw [fragment, List.drop_succ_cons, List.drop_zero, ← List.append_assoc (Encoder.u32 index),
    ← List.append_assoc (Encoder.u32 total)]
  refine List.take_left' ?_
  simp only [List.length_append, Encoder.length_u32]

theorem total_fragment :
    ((fragment total index count chunk).drop 1).take 4 = Encoder.u32 total := by
  rw [fragment, List.drop_succ_cons, List.drop_zero]
  exact List.take_left' (Encoder.length_u32 total)

theorem drop_fragment : (fragment total index count chunk).drop 5 =
    Encoder.u32 index ++ (Encoder.u32 count ++ chunk) := by
  rw [fragment, List.drop_succ_cons]
  exact List.drop_left' (Encoder.length_u32 total)

theorem index_fragment :
    ((fragment total index count chunk).drop 5).take 4 = Encoder.u32 index := by
  rw [drop_fragment]
  exact List.take_left' (Encoder.length_u32 index)

theorem drop_fragment_nine : (fragment total index count chunk).drop 9 =
    Encoder.u32 count ++ chunk := by
  rw [show 9 = 5 + 4 from rfl, ← List.drop_drop, drop_fragment]
  exact List.drop_left' (Encoder.length_u32 index)

theorem count_fragment :
    ((fragment total index count chunk).drop 9).take 4 = Encoder.u32 count := by
  rw [drop_fragment_nine]
  exact List.take_left' (Encoder.length_u32 count)

theorem chunk_fragment : (fragment total index count chunk).drop 13 = chunk := by
  rw [show 13 = 9 + 4 from rfl, ← List.drop_drop, drop_fragment_nine]
  exact List.drop_left' (Encoder.length_u32 count)

end Fragment

namespace Sealed

variable {lsn : UInt64} {pages : List SlottedPage}

/-- **Every page of a finished file is read.** -/
theorem heapPage (h : Sealed lsn pages) {id : ℕ} {page : SlottedPage}
    (hpage : pages[id]? = some page) :
    ∃ found, EveDB.heapPage (joinedPages pages) id = .ok found ∧ found.lsn = lsn.toNat ∧
      ∀ slot, (found.records[slot]?).join = page.get slot := by
  have hlt := (List.getElem?_eq_some_iff.mp hpage).1
  have hpaged := h.paged id page hpage
  obtain ⟨records, hholds⟩ := hpaged.holds
  have hsize : pageSize = 8192 := rfl
  have hmax : maxU64 = 2 ^ 64 - 1 := rfl
  have hfew := h.few
  have hat : Index.pageAt (joinedPages pages) id = .ok ⟨page.bytes, page.size⟩ := by
    rw [Index.pageAt, if_neg (by rw [hsize]; omega),
      dif_pos (by rw [length_joinedPages, hsize]; omega)]
    exact congrArg Except.ok (Subtype.ext (slice_joinedPages hpage))
  refine ⟨⟨page.lsn, (List.range page.recordCount).map page.get⟩, ?_, hpaged.lsn_eq, fun slot => ?_⟩
  · rw [EveDB.heapPage, hat, ok_bind]
    dsimp only
    rw [hholds.shows.decodes]
    dsimp only
    rw [if_neg (not_not.mpr hpaged.id_eq)]
    rfl
  · rw [hholds.slots, hholds.get]

variable (files : Store.Files) (fileId : FileId)

/-- A page is read under its sequence number, and under no other. -/
theorem readPage (h : Sealed lsn pages) {id : ℕ} {page : SlottedPage}
    (hpage : pages[id]? = some page) :
    (∃ found, (files.withHeap fileId (joinedPages pages)).readPage fileId id lsn.toNat = .ok found ∧
        ∀ slot, (found.records[slot]?).join = page.get slot) ∧
      ∀ other ≠ lsn.toNat, (files.withHeap fileId (joinedPages pages)).readPage fileId id other =
        corrupt "misdirected heap page" := by
  obtain ⟨found, hfound, hlsn, hrecords⟩ := h.heapPage hpage
  have hat : (files.withHeap fileId (joinedPages pages)).page fileId id = .ok found := by
    rw [Store.Files.withHeap]
    dsimp only
    rw [Function.update_self]
    exact hfound
  refine ⟨⟨found, ?_, hrecords⟩, fun other hother => ?_⟩
  · rw [Store.Files.readPage, hat, ok_bind, if_neg (not_not.mpr hlsn)]
    rfl
  · rw [Store.Files.readPage, hat, ok_bind, if_pos (fun heq => hother (heq.symm.trans hlsn))]

/-- A record that is stored is found on its page. -/
theorem readRecord (h : Sealed lsn pages) {id slot : ℕ} {record : Bytes}
    (hrecord : recordAt pages id slot = some record) :
    ∃ found, (files.withHeap fileId (joinedPages pages)).readPage fileId id lsn.toNat = .ok found ∧
      (found.records[slot]?).join = some record := by
  obtain ⟨page, hpage, hget⟩ := Option.bind_eq_some_iff.mp hrecord
  obtain ⟨⟨found, hfound, hslots⟩, -⟩ := h.readPage files fileId hpage
  exact ⟨found, hfound, (hslots slot).trans hget⟩

/-- **The fragments of a record are put together.** -/
theorem readChain (h : Sealed lsn pages) {pageId total count index : ℕ} {header bytes : Bytes}
    {chunks : List Bytes} (htotal : header.take 4 = Encoder.u32 total)
    (hcount : header.drop 8 = Encoder.u32 count) (hindex : index + chunks.length < 2 ^ 32)
    (hlength : bytes.length + chunks.flatten.length ≤ total)
    (hfragments : ∀ i chunk, chunks[i]? = some chunk →
      recordAt pages (pageId + (index + i)) 0 = some (fragment total (index + i) count chunk)) :
    (files.withHeap fileId (joinedPages pages)).readChain fileId pageId lsn.toNat total header
      chunks.length index bytes = .ok (bytes ++ chunks.flatten) := by
  induction chunks generalizing index bytes with
  | nil =>
    rw [List.flatten_nil, List.append_nil]
    rfl
  | cons chunk chunks ih =>
    rw [List.length_cons] at hindex
    rw [List.flatten_cons, List.length_append] at hlength
    have hrecord := hfragments 0 chunk rfl
    rw [Nat.add_zero] at hrecord
    obtain ⟨found, hfound, hslot⟩ := h.readRecord files fileId hrecord
    rw [← List.head?_eq_getElem?] at hslot
    have hfields : ¬ ((fragment total index count chunk).length < 13 ∨
        (fragment total index count chunk).head? ≠ some 1 ∨
        ((fragment total index count chunk).drop 1).take 4 ≠ header.take 4 ∨
        ((fragment total index count chunk).drop 9).take 4 ≠ header.drop 8 ∨
        LittleEndian.decode (((fragment total index count chunk).drop 5).take 4) ≠ index) := by
      rw [length_fragment, head?_fragment, total_fragment, count_fragment, index_fragment, htotal,
        hcount, decode_u32 (by omega)]
      rintro (hshort | hrest | hrest | hrest | hrest)
      · omega
      · exact hrest rfl
      · exact hrest rfl
      · exact hrest rfl
      · exact hrest rfl
    have hfits : ¬ total < bytes.length + ((fragment total index count chunk).length - 13) := by
      rw [length_fragment]
      omega
    rw [List.length_cons, Store.Files.readChain, hfound, ok_bind, hslot]
    dsimp only
    rw [if_neg hfields, if_neg hfits, chunk_fragment,
      ih (by omega) (by rw [List.length_append]; omega) fun i next hnext => ?_, List.flatten_cons,
      List.append_assoc]
    have hfragment := hfragments (i + 1) next hnext
    rwa [← Nat.add_assoc index i 1, Nat.add_right_comm index i 1] at hfragment

/-- A record in fragments is read from the page of the first. -/
theorem readOverflow (h : Sealed lsn pages) {location : ℕ} {chunk : Bytes} {chunks : List Bytes}
    (hslot : location % 2 ^ 16 = 0)
    (hlarge : SlottedPage.maxRecordSize ≤ (chunk :: chunks).flatten.length)
    (hmax : (chunk :: chunks).flatten.length ≤ maxRecord)
    (hcount : (chunk :: chunks).length =
      ((chunk :: chunks).flatten.length + (fragmentSize - 1)) / fragmentSize)
    (hfragments : ∀ i found, (chunk :: chunks)[i]? = some found →
      recordAt pages (location / 2 ^ 16 + i) 0 =
        some (fragment (chunk :: chunks).flatten.length i (chunk :: chunks).length found)) :
    (files.withHeap fileId (joinedPages pages)).readBuffer fileId location lsn.toNat =
      ⟨[.scratch (chunk :: chunks).flatten.length], .ok (chunk :: chunks).flatten⟩ := by
  obtain ⟨total, htotal⟩ : ∃ total, (chunk :: chunks).flatten.length = total := ⟨_, rfl⟩
  obtain ⟨count, hlength⟩ : ∃ count, (chunk :: chunks).length = count := ⟨_, rfl⟩
  rw [htotal] at hlarge hmax hcount
  simp only [htotal, hlength] at hcount hfragments
  have hsizes : SlottedPage.maxRecordSize = 8148 ∧ Store.maxRecordSize = 8148 := ⟨rfl, rfl⟩
  have hsizes' : fragmentSize = 8135 ∧ maxRecord = 16777216 := ⟨rfl, rfl⟩
  rw [hsizes'.1] at hcount
  -- the first fragment tells how long the record is and in how many fragments it comes
  obtain ⟨found, hfound, hget⟩ := h.readRecord files fileId (hfragments 0 chunk rfl)
  have hdrop : (Encoder.u32 total ++ (Encoder.u32 0 ++ Encoder.u32 count)).drop 8 =
      Encoder.u32 count := by
    rw [← List.append_assoc]
    refine List.drop_left' ?_
    rw [List.length_append, Encoder.length_u32, Encoder.length_u32]
  have htake : (Encoder.u32 total ++ (Encoder.u32 0 ++ Encoder.u32 count)).take 4 =
      Encoder.u32 total := List.take_left' (Encoder.length_u32 total)
  have hread := @readChain lsn pages files fileId h (location / 2 ^ 16) total count 0 _ []
    (chunk :: chunks) htake hdrop (by omega) (by rw [List.length_nil, Nat.zero_add, htotal])
    (fun i => by rw [Nat.zero_add]; exact hfragments i)
  have hvalid : ¬ (total < Store.maxRecordSize ∨ maxRecord < total ∨
      count ≠ (total + (Store.maxRecordSize - 13) - 1) / (Store.maxRecordSize - 13) ∨
      (0 : ℕ) ≠ 0) := by
    rw [hsizes.2]
    omega
  rw [Nat.add_zero] at hfound
  rw [hlength, List.nil_append] at hread
  rw [Store.Files.readBuffer, hfound]
  dsimp only
  rw [Guarded.lift_ok_bind, hslot, hget]
  dsimp only
  rw [head?_fragment, if_neg (by decide), if_pos ⟨rfl, by rw [length_fragment]; omega⟩,
    header_fragment, htake, hdrop, decode_u32 (by omega), decode_u32 (by omega), if_neg hvalid,
    hread, htotal]
  rw [Guarded.lift_ok_bind, if_neg (not_not.mpr htotal)]
  rfl

/-- **A record that is stored reads back**, and under no other sequence number. -/
theorem readBuffer (h : Sealed lsn pages) {location : ℕ} {bytes : Bytes}
    (hstored : StoredAt pages location bytes) :
    (files.withHeap fileId (joinedPages pages)).readBuffer fileId location lsn.toNat =
        ⟨[.scratch bytes.length], .ok bytes⟩ ∧
      ∀ other ≠ lsn.toNat,
        (files.withHeap fileId (joinedPages pages)).readBuffer fileId location other =
          Guarded.lift (corrupt "misdirected heap page") := by
  have hother {id slot : ℕ} {record : Bytes} (hrecord : recordAt pages id slot = some record)
      (hid : location / 2 ^ 16 = id) : ∀ other ≠ lsn.toNat,
      (files.withHeap fileId (joinedPages pages)).readBuffer fileId location other =
        Guarded.lift (corrupt "misdirected heap page") := by
    intro other hother
    obtain ⟨page, hpage, -⟩ := Option.bind_eq_some_iff.mp hrecord
    rw [Store.Files.readBuffer, hid, (h.readPage files fileId hpage).2 other hother]
    rfl
  rcases hstored with ⟨-, hrecord⟩ | ⟨hlarge, hmax, hslot, hchunks⟩
  · refine ⟨?_, hother hrecord rfl⟩
    obtain ⟨found, hfound, hslot⟩ := h.readRecord files fileId hrecord
    have hhead : (0 :: bytes).head? = some 0 := rfl
    rw [Store.Files.readBuffer, hfound]
    dsimp only
    rw [Guarded.lift_ok_bind, hslot]
    dsimp only
    rw [if_pos hhead]
    rfl
  · have hsizes : SlottedPage.maxRecordSize = 8148 ∧ fragmentSize = 8135 := ⟨rfl, rfl⟩
    have hlength := @Chunks.length_chunks _ fragmentSize (by decide) bytes
    have hflatten := Chunks.flatten_chunks fragmentSize bytes
    rcases hall : Chunks.chunks fragmentSize bytes with _ | ⟨chunk, chunks⟩
    · rw [hall, hsizes.2, List.length_nil] at hlength
      omega
    · rw [hall] at hlength hflatten hchunks
      rw [← hlength] at hchunks
      refine ⟨?_, hother (hchunks 0 chunk rfl) (Nat.add_zero _).symm⟩
      rw [h.readOverflow files fileId hslot (by rw [hflatten]; exact hlarge)
        (by rw [hflatten]; exact hmax) (by rw [hflatten]; exact hlength) (by rwa [hflatten]),
        hflatten]

end Sealed

namespace HeapWriter

variable {w : HeapWriter} {written : List SlottedPage}

/-- **Finishing a file** loses nothing. -/
theorem Paged.finish (h : w.Paged written) :
    ∃ pages, Sealed w.lsn pages ∧ w.finish = joinedPages pages ∧
      Extends (written ++ [w.page]) pages := by
  have hfew := h.few
  by_cases hzero : w.page.recordCount = 0
  · refine ⟨written, ⟨fun id page hpage => h.paged id page ?_, hfew.le⟩, ?_, ?_⟩
    · rwa [List.getElem?_append_left (List.getElem?_eq_some_iff.mp hpage).1]
    · rw [HeapWriter.finish, HeapWriter.flush, if_pos hzero]
      exact h.file
    · -- the page being filled is empty
      intro id slot record hrecord
      obtain ⟨page, hpage, hget⟩ := Option.bind_eq_some_iff.mp hrecord
      rcases lt_or_ge id written.length with hlt | hge
      · rwa [recordAt, List.getElem?_append_left hlt] at hrecord
      · have hlt := (List.getElem?_eq_some_iff.mp hpage).1
        obtain rfl : id = written.length := by
          rw [List.length_append, List.length_singleton] at hlt
          omega
        rw [recordAt_concat, SlottedPage.get, if_pos (by omega)] at hrecord
        cases hrecord
  · refine ⟨written ++ [w.page], ⟨h.paged, ?_⟩, ?_, .refl _⟩
    · rw [List.length_append, List.length_singleton]
      omega
    · rw [HeapWriter.finish, HeapWriter.flush, if_neg hzero, joinedPages, List.map_append,
        List.flatten_append, List.map_singleton, List.flatten_singleton, ← h.file]

/-- The append of a record comes behind those of the records in front of it. -/
theorem appendEach_getElem {records : List Bytes} {i : ℕ} {bytes : Bytes}
    (hbytes : records[i]? = some bytes) :
    (appendEach records w).1[i]? = some ((append bytes).run (after (records.take i) w)).1 ∧
      after (records.take (i + 1)) w = ((append bytes).run (after (records.take i) w)).2 := by
  induction records generalizing w i with
  | nil => cases hbytes
  | cons first records ih =>
    rcases hrun : (append first).run w with ⟨result, w'⟩
    cases i with
    | zero =>
      obtain rfl := Option.some.inj hbytes
      rw [appendEach_cons hrun, List.take_succ_cons, after_cons hrun]
      exact ⟨congrArg some (congrArg Prod.fst hrun).symm, (congrArg Prod.snd hrun).symm⟩
    | succ i =>
      rw [appendEach_cons hrun, List.take_succ_cons, List.take_succ_cons, after_cons hrun,
        after_cons hrun, List.getElem?_cons_succ]
      exact ih hbytes

/-- **Every record of a heap file reads back.** Records of any sizes are appended to a new file one
after the other. One of more than sixteen megabytes is refused without a change. Any other is
appended as long as the page limit has not been reached, and from the finished file it is read at
the location that was returned, under the sequence number of the file and no other. -/
theorem appended_records_read_back (lsn : UInt64) (records : List Bytes) (files : Store.Files)
    (fileId : FileId) {i : ℕ} {bytes : Bytes} (hbytes : records[i]? = some bytes) :
    (maxRecord < bytes.length →
        (∃ e, (appendEach records (create lsn)).1[i]? = some (.error (.invalid e))) ∧
          after (records.take (i + 1)) (create lsn) = after (records.take i) (create lsn)) ∧
      (bytes.length ≤ maxRecord → (after (records.take i) (create lsn)).page.pageId < pageLimit →
        ∃ location, (appendEach records (create lsn)).1[i]? = some (.ok location) ∧
          (files.withHeap fileId (after records (create lsn)).finish).readBuffer fileId location
              lsn.toNat = ⟨[.scratch bytes.length], .ok bytes⟩ ∧
          ∀ other ≠ lsn.toNat,
            (files.withHeap fileId (after records (create lsn)).finish).readBuffer fileId location
              other = Guarded.lift (corrupt "misdirected heap page")) := by
  obtain ⟨hresult, hnext⟩ := @appendEach_getElem (create lsn) _ _ _ hbytes
  obtain ⟨written, hran⟩ := (paged_create lsn).run records
  obtain ⟨before, hbefore⟩ := (paged_create lsn).run (records.take i)
  constructor
  · intro hlarge
    obtain ⟨e, hrefused⟩ := @append_refused (after (records.take i) (create lsn)) _ (Or.inl hlarge)
    rw [hrefused] at hresult hnext
    exact ⟨⟨e, hresult⟩, hnext⟩
  · intro hmax hlimit
    obtain ⟨location, w', written', hrun, -⟩ := hbefore.paged.append hmax hlimit
    rw [hrun] at hresult
    obtain ⟨pages, hsealed, hfinish, hkeeps⟩ := hran.paged.finish
    have hstored : StoredAt pages location bytes := by
      obtain ⟨hi, hget⟩ := List.getElem?_eq_some_iff.mp hbytes
      obtain ⟨hi', hget'⟩ := List.getElem?_eq_some_iff.mp hresult
      exact hget ▸ (hran.stored.get hi hi' location hget').2.mono hkeeps
    rw [hfinish]
    have hlsn : (after records (create lsn)).lsn = lsn := hran.lsn_eq
    rw [hlsn] at hsealed
    exact ⟨location, hresult, hsealed.readBuffer files fileId hstored⟩

/-- A record on a page, one in three fragments, and one that is too large. -/
def threeRecords : List Bytes :=
  [[5], List.replicate 20000 1, List.replicate (maxRecord + 1) 0]

/-- A short record stays on the first page. -/
theorem pageId_after_short : (after [[5]] (create 7)).page.pageId = 0 := by
  have hempty : (create 7).page.Holds [] := (heapPaged_newPage 0 7 (by decide)).2
  have hid : (create 7).page.pageId = 0 := (paged_create 7).page.id_eq
  obtain ⟨hrun, hpaged, -⟩ := @Paged.appended_insert (create 7) [] (paged_create 7) [5] (by decide)
    (by rw [hempty.freeSpace_eq]; decide)
  have hfirst : (append [5]).run (create 7) =
      (.ok (create 7).frontier, (create 7).inserted [0, 5]) := by
    rw [append_eq (by decide) (by rw [hid]; decide), if_pos (by decide), hempty.freeSpace_eq,
      if_neg (by decide)]
    exact hrun
  rw [after_cons hfirst]
  exact hpaged.page.id_eq

/-- In a file with these records, the short one and the one in fragments are read back, the
latter under no other sequence number, and the large one is refused. -/
theorem appended_records_read_back_three : ∃ location chain,
    (appendEach threeRecords (create 7)).1[0]? = some (.ok location) ∧
      (appendEach threeRecords (create 7)).1[1]? = some (.ok chain) ∧
      (∃ e, (appendEach threeRecords (create 7)).1[2]? = some (.error (.invalid e))) ∧
      (Store.Files.empty.withHeap ⟨1, 1, 2, 0⟩ (after threeRecords (create 7)).finish).readBuffer
        ⟨1, 1, 2, 0⟩ location 7 = ⟨[.scratch 1], .ok [5]⟩ ∧
      (Store.Files.empty.withHeap ⟨1, 1, 2, 0⟩ (after threeRecords (create 7)).finish).readBuffer
        ⟨1, 1, 2, 0⟩ chain 7 = ⟨[.scratch 20000], .ok (List.replicate 20000 1)⟩ ∧
      (Store.Files.empty.withHeap ⟨1, 1, 2, 0⟩ (after threeRecords (create 7)).finish).readBuffer
        ⟨1, 1, 2, 0⟩ chain 8 = Guarded.lift (corrupt "misdirected heap page") := by
  have hread := @appended_records_read_back 7 threeRecords Store.Files.empty ⟨1, 1, 2, 0⟩
  have hmax : maxRecord = 16777216 := rfl
  obtain ⟨location, hresult, hbuffer, -⟩ := (@hread 0 [5] rfl).2 (by decide) (by
    rw [show (after (threeRecords.take 0) (create 7)).page.pageId = 0 from
      (paged_create 7).page.id_eq]
    decide)
  obtain ⟨chain, hchain, hfragments, hother⟩ := (@hread 1 (List.replicate 20000 1) rfl).2
    (by rw [List.length_replicate, hmax]; decide) (by
      rw [show after (threeRecords.take 1) (create 7) = after [[5]] (create 7) from rfl,
        pageId_after_short]
      decide)
  obtain ⟨hlarge, -⟩ := (@hread 2 (List.replicate (maxRecord + 1) 0) rfl).1
    (by rw [List.length_replicate]; exact Nat.lt_succ_self _)
  rw [List.length_replicate] at hfragments
  exact ⟨location, chain, hresult, hchain, hlarge, hbuffer, hfragments, hother 8 (by decide)⟩

end HeapWriter

end EveDB
