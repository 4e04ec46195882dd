import EveDB.Builder.Slots
import EveDB.Library.Chunks
import EveDB.Storage.IndexFile
import EveDB.Storage.Slots

/-!
# Heap files

A heap file is a sequence of slotted pages that all carry one sequence number
(`storage/heap.rs`). A record goes behind the others of the page that is being filled
(`HeapWriter.append`); one that no page has room for is cut into fragments, each on a page of its
own, with a header that tells the fragments of one record apart. The location of a record is the
page it starts on and the slot it has there.

A finished file is read page by page (`heapPage`), and a record is put together as
`Store.Files.readBuffer` says.
-/

namespace EveDB

open Fallible

/-- Pages addressable by one heap file, leaving the top byte to the slot. -/
def pageLimit : ℕ := 2 ^ 40

/-- The text of a page error. -/
def PageError.display : PageError → String
  | .invalidSize => "expected exactly 8192 page bytes"
  | .invalidHeader => "invalid page header"
  | .unsupportedVersion version => "unsupported page format version " ++ toString version
  | .invalidLayout => "invalid slot directory or record boundaries"
  | .recordTooLarge => "record exceeds 8148 bytes"
  | .full => "insufficient space for the record and its slot"
  | .checksumMismatch => "page checksum mismatch"

/-- **What a heap file is written with**: the pages written so far, and the one being filled. -/
structure HeapWriter where
  file : Bytes
  page : SlottedPage
  lsn : UInt64

/-- The record of a fragment. -/
def fragment (total index count : ℕ) (chunk : Bytes) : Bytes :=
  1 :: (Encoder.u32 total ++ (Encoder.u32 index ++ (Encoder.u32 count ++ chunk)))

/-- The bytes of a record that go into one fragment. -/
def fragmentSize : ℕ := SlottedPage.maxRecordSize - 13

namespace HeapWriter

/-- An empty page of the file. -/
def newPage (id : ℕ) (lsn : UInt64) : SlottedPage := (SlottedPage.new (UInt64.ofNat id)).setLsn lsn

/-- A writer for a new file. -/
def create (lsn : UInt64) : HeapWriter := ⟨[], newPage 0 lsn, lsn⟩

/-- Writes the page being filled, unless it is empty, and starts the next one. -/
def flush (w : HeapWriter) : HeapWriter :=
  if w.page.recordCount = 0 then w
  else { w with file := w.file ++ w.page.bytes, page := newPage (w.page.pageId + 1) w.lsn }

/-- Inserts a record on the page being filled. -/
def insert (record : Bytes) : Fallible Error HeapWriter ℕ := fun w =>
  match w.page.insert record with
  | (.ok slot, page) => (.ok slot, { w with page })
  | (.error e, page) => (corrupt e.display, { w with page })

/-- Writes fragments, each on a page of its own. -/
def appendChain (total count : ℕ) : ℕ → List Bytes → Fallible Error HeapWriter Unit
  | _, [] => return ()
  | index, chunk :: chunks => do
    let _ ← insert (fragment total index count chunk)
    modify flush
    appendChain total count (index + 1) chunks

/-- **Appends a record**, and returns its location. -/
def append (bytes : Bytes) : Fallible Error HeapWriter ℕ := do
  let w ← get
  if maxRecord < bytes.length then Fallible.lift (.error (.invalid "record exceeds 16 MiB"))
  else if pageLimit ≤ w.page.pageId then
    Fallible.lift (.error (.invalid "heap file exceeds its addressable size"))
  else if bytes.length < SlottedPage.maxRecordSize then do
    let record := 0 :: bytes
    if w.page.freeSpace < record.length + 4 then modify flush
    let slot ← insert record
    return (← get).page.pageId * 2 ^ 16 ||| slot
  else do
    modify flush
    let start := (← get).page.pageId * 2 ^ 16
    let count := (bytes.length + (fragmentSize - 1)) / fragmentSize
    appendChain bytes.length count 0 (Chunks.chunks fragmentSize bytes)
    return start

/-- The finished file. -/
def finish (w : HeapWriter) : Bytes := w.flush.file

/-- Appends records one after the other, whether they are refused or not. -/
def appendEach : List Bytes → HeapWriter → List (Result ℕ) × HeapWriter
  | [], w => ([], w)
  | bytes :: records, w =>
    let (result, w) := (append bytes).run w
    let (results, w) := appendEach records w
    (result :: results, w)

end HeapWriter

/-- A page of a heap file. -/
def heapPage (file : Bytes) (id : ℕ) : Result Store.HeapPage := do
  let bytes ← Index.pageAt file id
  match SlottedPage.fromBytes bytes.1 with
  | .error e => corrupt e.display
  | .ok page =>
    if page.pageId ≠ id then corrupt "misdirected heap page"
    else return { lsn := page.lsn, records := (List.range page.recordCount).map page.get }

/-! ### The pages of a writer -/

/-- The record in a slot of one of the pages. -/
def recordAt (pages : List SlottedPage) (id slot : ℕ) : Option Bytes :=
  pages[id]?.bind fun page => page.get slot

/-- **Nothing is lost** on the way from some pages to others. -/
def Extends (pages pages' : List SlottedPage) : Prop :=
  ∀ id slot record, recordAt pages id slot = some record → recordAt pages' id slot = some record

/-- **A record is stored at a location**: on one page, or in fragments on pages in a row. -/
def StoredAt (pages : List SlottedPage) (location : ℕ) (bytes : Bytes) : Prop :=
  (bytes.length < SlottedPage.maxRecordSize ∧
      recordAt pages (location / 2 ^ 16) (location % 2 ^ 16) = some (0 :: bytes)) ∨
    (SlottedPage.maxRecordSize ≤ bytes.length ∧ bytes.length ≤ maxRecord ∧ location % 2 ^ 16 = 0 ∧
      ∀ index chunk, (Chunks.chunks fragmentSize bytes)[index]? = some chunk →
        recordAt pages (location / 2 ^ 16 + index) 0 = some (fragment bytes.length index
          ((bytes.length + (fragmentSize - 1)) / fragmentSize) chunk))

theorem Extends.refl (pages : List SlottedPage) : Extends pages pages := fun _ _ _ h => h

theorem Extends.trans {pages pages' pages'' : List SlottedPage} (h : Extends pages pages')
    (h' : Extends pages' pages'') : Extends pages pages'' :=
  fun id slot record hrecord => h' id slot record (h id slot record hrecord)

/-- What is stored stays so. -/
theorem StoredAt.mono {pages pages' : List SlottedPage} {location : ℕ} {bytes : Bytes}
    (h : StoredAt pages location bytes) (hpages : Extends pages pages') :
    StoredAt pages' location bytes := by
  rcases h with ⟨hsmall, hrecord⟩ | ⟨hlarge, hmax, hslot, hchunks⟩
  · exact Or.inl ⟨hsmall, hpages _ _ _ hrecord⟩
  · exact Or.inr ⟨hlarge, hmax, hslot, fun index chunk h => hpages _ _ _ (hchunks index chunk h)⟩

/-- **A page of a file**, under its number and the sequence of the file. -/
structure HeapPaged (lsn : UInt64) (id : ℕ) (page : SlottedPage) : Prop where
  id_eq : page.pageId = id
  lsn_eq : page.lsn = lsn.toNat
  holds : ∃ records : List Bytes, page.Holds (records.map some)

/-- A page has few records. -/
theorem HeapPaged.recordCount_lt {lsn : UInt64} {id : ℕ} {page : SlottedPage}
    (h : HeapPaged lsn id page) : page.recordCount < 2 ^ 16 := by
  obtain ⟨records, hholds⟩ := h.holds
  have hroom := hholds.room
  have hcount : page.recordCount = (records.map some).length := hholds.count
  omega

namespace HeapWriter

/-- **The pages of a writer**: those it has written, and the one it fills. -/
structure Paged (w : HeapWriter) (written : List SlottedPage) : Prop where
  file : w.file = (written.map SlottedPage.bytes).flatten
  paged : ∀ id page, (written ++ [w.page])[id]? = some page → HeapPaged w.lsn id page
  few : written.length < 2 ^ 50

/-- The first location that is free. -/
def frontier (w : HeapWriter) : ℕ := w.page.pageId * 2 ^ 16 + w.page.recordCount

section Steps

variable {w : HeapWriter} {written : List SlottedPage}

theorem Paged.page (h : w.Paged written) : HeapPaged w.lsn written.length w.page :=
  h.paged _ _ (List.getElem?_concat_length)

/-- A new page is empty, and has its number. -/
theorem heapPaged_newPage (id : ℕ) (lsn : UInt64) (hid : id < 2 ^ 64) :
    HeapPaged lsn id (newPage id lsn) ∧ (newPage id lsn).Holds [] := by
  obtain ⟨hnew, hnewId, -⟩ := SlottedPage.holds_new (UInt64.ofNat id)
  obtain ⟨hholds, hpageId, hlsn⟩ := hnew.setLsn lsn
  refine ⟨⟨?_, hlsn, [], hholds⟩, hholds⟩
  rw [newPage, hpageId, hnewId]
  exact UInt64.toNat_ofNat_of_lt hid

theorem paged_create (lsn : UInt64) : (create lsn).Paged [] := by
  refine ⟨rfl, fun id page hpage => ?_, by decide⟩
  obtain ⟨rfl, rfl⟩ : id = 0 ∧ newPage 0 lsn = page := by
    cases id with
    | zero => exact ⟨rfl, Option.some.inj hpage⟩
    | succ id => cases hpage
  exact (heapPaged_newPage 0 lsn (by decide)).1

theorem recordAt_append {pages more : List SlottedPage} {id slot : ℕ} {record : Bytes}
    (h : recordAt pages id slot = some record) :
    recordAt (pages ++ more) id slot = some record := by
  obtain ⟨page, hpage, hget⟩ := Option.bind_eq_some_iff.mp h
  rw [recordAt, List.getElem?_append_left (List.getElem?_eq_some_iff.mp hpage).1, hpage]
  exact hget

theorem extends_append (pages more : List SlottedPage) : Extends pages (pages ++ more) :=
  fun _ _ _ h => recordAt_append h

theorem recordAt_concat (pages : List SlottedPage) (page : SlottedPage) (slot : ℕ) :
    recordAt (pages ++ [page]) pages.length slot = page.get slot := by
  rw [recordAt, List.getElem?_concat_length, Option.bind_some]

/-- Another page in the last place loses nothing if it has the same records and more. -/
theorem extends_concat {pages : List SlottedPage} {page page' : SlottedPage}
    (h : ∀ slot record, page.get slot = some record → page'.get slot = some record) :
    Extends (pages ++ [page]) (pages ++ [page']) := by
  intro id slot record hrecord
  rcases lt_or_ge id pages.length with hlt | hge
  · rw [recordAt, List.getElem?_append_left hlt] at hrecord ⊢
    exact hrecord
  · obtain ⟨found, hfound, -⟩ := Option.bind_eq_some_iff.mp hrecord
    have hlt := (List.getElem?_eq_some_iff.mp hfound).1
    obtain rfl : id = pages.length := by
      rw [List.length_append, List.length_singleton] at hlt
      omega
    rw [recordAt_concat] at hrecord ⊢
    exact h slot record hrecord

/-- **Starting the next page** loses nothing, and leaves an empty one. -/
theorem Paged.flush (h : w.Paged written) (hfew : written.length + 1 < 2 ^ 50) :
    ∃ written', w.flush.Paged written' ∧
      Extends (written ++ [w.page]) (written' ++ [w.flush.page]) ∧ w.flush.page.Holds [] ∧
      w.flush.lsn = w.lsn ∧
      written'.length = written.length + (if w.page.recordCount = 0 then 0 else 1) := by
  unfold HeapWriter.flush
  split
  · next hzero =>
    obtain ⟨records, hholds⟩ := h.page.holds
    have hcount : w.page.recordCount = (records.map some).length := hholds.count
    have hempty : records.map some = [] := List.eq_nil_of_length_eq_zero (hcount.symm.trans hzero)
    exact ⟨written, h, .refl _, hempty ▸ hholds, rfl, rfl⟩
  · have hid : w.page.pageId + 1 = (written ++ [w.page]).length := by
      rw [h.page.id_eq, List.length_append, List.length_singleton]
    obtain ⟨hnew, hempty⟩ := heapPaged_newPage (w.page.pageId + 1) w.lsn (by
      rw [h.page.id_eq]
      omega)
    refine ⟨written ++ [w.page], ⟨?_, fun id page hpage => ?_, ?_⟩, extends_append _ _, hempty, rfl,
      by rw [List.length_append, List.length_singleton]⟩
    · rw [h.file, List.map_append, List.flatten_append, List.map_singleton, List.flatten_singleton]
    · rcases lt_or_ge id (written ++ [w.page]).length with hlt | hge
      · rw [List.getElem?_append_left hlt] at hpage
        exact h.paged id page hpage
      · have hlt := (List.getElem?_eq_some_iff.mp hpage).1
        rw [List.length_append, List.length_singleton] at hlt
        obtain rfl : id = (written ++ [w.page]).length := by omega
        rw [List.getElem?_concat_length] at hpage
        rw [← Option.some.inj hpage, ← hid]
        exact hnew
    · rw [List.length_append, List.length_singleton]
      exact hfew

/-- The writer behind a record that was inserted. -/
def inserted (w : HeapWriter) (record : Bytes) : HeapWriter :=
  { w with page := w.page.inserted record }

/-- **A record that fits** goes behind the others of its page. -/
theorem Paged.insert (h : w.Paged written) {record : Bytes}
    (hfree : record.length + 4 ≤ w.page.freeSpace) :
    (insert record).run w = (.ok w.page.recordCount, w.inserted record) ∧
      (w.inserted record).Paged written ∧
      Extends (written ++ [w.page]) (written ++ [(w.inserted record).page]) ∧
      recordAt (written ++ [(w.inserted record).page]) written.length w.page.recordCount =
        some record ∧
      (w.inserted record).page.recordCount = w.page.recordCount + 1 := by
  obtain ⟨records, hholds⟩ := h.page.holds
  obtain ⟨hinserted, hid, hlsn⟩ := hholds.inserted hfree
  have hcount : w.page.recordCount = (records.map some).length := hholds.count
  have hcount' : (w.page.inserted record).recordCount = _ := hinserted.count
  refine ⟨?_, ⟨h.file, fun id page hpage => ?_, h.few⟩, extends_concat fun slot old hold => ?_, ?_,
    ?_⟩
  · unfold run HeapWriter.insert
    rw [hholds.insert_eq hfree, hcount]
    rfl
  · rcases lt_or_ge id written.length with hlt | hge
    · refine h.paged id page ?_
      rwa [List.getElem?_append_left hlt] at hpage ⊢
    · have hlt := (List.getElem?_eq_some_iff.mp hpage).1
      rw [List.length_append, List.length_singleton] at hlt
      obtain rfl : id = written.length := by omega
      rw [List.getElem?_concat_length] at hpage
      rw [← Option.some.inj hpage]
      refine ⟨hid.trans h.page.id_eq, hlsn.trans h.page.lsn_eq, records ++ [record], ?_⟩
      rw [List.map_append]
      exact hinserted
  · rw [hholds.get] at hold
    change (w.page.inserted record).get slot = some old
    rw [hinserted.get]
    have hslot := Option.join_eq_some_iff.mp hold
    rw [List.getElem?_append_left (List.getElem?_eq_some_iff.mp hslot).1, hslot, Option.join_some]
  · rw [recordAt_concat]
    change (w.page.inserted record).get _ = _
    rw [hinserted.get, hcount, List.getElem?_concat_length, Option.join_some]
  · change (w.page.inserted record).recordCount = _
    rw [hcount', List.length_append, List.length_singleton, hcount]

/-- **A chain of fragments** takes a page for each. -/
theorem Paged.appendChain (h : w.Paged written) (hempty : w.page.Holds []) {total count index : ℕ}
    {chunks : List Bytes} (hchunks : ∀ chunk ∈ chunks, chunk.length ≤ fragmentSize)
    (hfew : written.length + chunks.length < 2 ^ 50) :
    ∃ w' written', (appendChain total count index chunks).run w = (.ok (), w') ∧
      w'.Paged written' ∧ Extends (written ++ [w.page]) (written' ++ [w'.page]) ∧
      w'.page.Holds [] ∧ w'.lsn = w.lsn ∧ written'.length = written.length + chunks.length ∧
      ∀ i chunk, chunks[i]? = some chunk →
        recordAt (written' ++ [w'.page]) (written.length + i) 0 =
          some (fragment total (index + i) count chunk) := by
  induction chunks generalizing w written index with
  | nil =>
    refine ⟨w, written, rfl, h, .refl _, hempty, rfl, rfl, fun i chunk hchunk => ?_⟩
    cases hchunk
  | cons chunk chunks ih =>
    obtain ⟨hchunk, hchunks⟩ := List.forall_mem_cons.mp hchunks
    rw [List.length_cons] at hfew
    have hcount : w.page.recordCount = 0 := hempty.count
    have hlength : (fragment total index count chunk).length = 13 + chunk.length := by
      simp only [fragment, List.length_cons, List.length_append, Encoder.length_u32]
      omega
    have hfree : (fragment total index count chunk).length + 4 ≤ w.page.freeSpace := by
      rw [hempty.freeSpace_eq, hlength]
      have hroom : SlottedPage.room [] = 8152 := rfl
      have hsize : fragmentSize = 8135 := rfl
      omega
    obtain ⟨hinsert, hinserted, hkept, hrecord, hcount'⟩ := h.insert hfree
    obtain ⟨written₁, hpaged, hflushed, hempty', hlsn, hlength₁⟩ := hinserted.flush (by omega)
    rw [hcount', if_neg (Nat.succ_ne_zero _)] at hlength₁
    obtain ⟨w', written', hrun, hpaged', hrest, hempty'', hlsn', hlength', hfragments⟩ :=
      @ih _ _ hpaged hempty' (index + 1) hchunks (by omega)
    refine ⟨w', written', ?_, hpaged', (hkept.trans hflushed).trans hrest, hempty'',
      hlsn'.trans hlsn, ?_, fun i found hfound => ?_⟩
    · refine run_bind_eq_ok.mpr ⟨_, _, hinsert, ?_⟩
      exact run_bind_eq_ok.mpr ⟨(), (w.inserted _).flush, rfl, hrun⟩
    · rw [List.length_cons]
      omega
    · cases i with
      | zero =>
        obtain rfl := Option.some.inj hfound
        rw [hcount] at hrecord
        exact hrest _ _ _ (hflushed _ _ _ hrecord)
      | succ i =>
        have hfragment := hfragments i found hfound
        rw [hlength₁, Nat.add_assoc, Nat.add_comm 1 i] at hfragment
        rw [hfragment, Nat.add_assoc, Nat.add_comm 1 i]

/-- **An append overruns the file** when it has to start a page and the last page that a location
can name is being filled. -/
def Overruns (w : HeapWriter) (bytes : Bytes) : Prop :=
  w.page.pageId + 1 = pageLimit ∧ w.page.recordCount ≠ 0 ∧ bytes.length ≤ maxRecord ∧
    (SlottedPage.maxRecordSize ≤ bytes.length ∨ w.page.freeSpace < bytes.length + 1 + 4)

/-- **What an append does**: it stores the record at a location behind all others, and loses
nothing. -/
structure Appended (w w' : HeapWriter) (written written' : List SlottedPage) (bytes : Bytes)
    (location : ℕ) : Prop where
  paged : w'.Paged written'
  keeps : Extends (written ++ [w.page]) (written' ++ [w'.page])
  stored : StoredAt (written' ++ [w'.page]) location bytes
  fresh : w.frontier ≤ location
  behind : location < w'.frontier
  lsn_eq : w'.lsn = w.lsn
  inside : location < 2 ^ 56 ↔ ¬ w.Overruns bytes

/-- A page and a slot make up a location. -/
theorem location_eq {id slot : ℕ} (hslot : slot < 2 ^ 16) :
    id * 2 ^ 16 ||| slot = id * 2 ^ 16 + slot := by
  rw [← Nat.shiftLeft_eq, Nat.shiftLeft_add_eq_or_of_lt hslot]

/-- **Inserting a record** on a page that has room for it. -/
theorem Paged.appended_insert (h : w.Paged written) {bytes : Bytes}
    (hsmall : bytes.length < SlottedPage.maxRecordSize)
    (hfree : (0 :: bytes).length + 4 ≤ w.page.freeSpace) :
    (do
        let slot ← HeapWriter.insert (0 :: bytes)
        return (← get).page.pageId * 2 ^ 16 ||| slot : Fallible Error HeapWriter ℕ).run w =
      (.ok w.frontier, w.inserted (0 :: bytes)) ∧
      (w.inserted (0 :: bytes)).Paged written ∧
      Extends (written ++ [w.page]) (written ++ [(w.inserted (0 :: bytes)).page]) ∧
      StoredAt (written ++ [(w.inserted (0 :: bytes)).page]) w.frontier bytes ∧
      w.frontier < (w.inserted (0 :: bytes)).frontier := by
  have hslot := h.page.recordCount_lt
  obtain ⟨hinsert, hinserted, hkept, hrecord, hcount⟩ := h.insert hfree
  have hid : (w.inserted (0 :: bytes)).page.pageId = w.page.pageId :=
    hinserted.page.id_eq.trans h.page.id_eq.symm
  refine ⟨?_, hinserted, hkept, Or.inl ⟨hsmall, ?_⟩, ?_⟩
  · refine run_bind_eq_ok.mpr ⟨_, _, hinsert, ?_⟩
    refine run_bind_eq_ok.mpr ⟨_, _, rfl, ?_⟩
    rw [hid, location_eq hslot]
    rfl
  · have hpage : w.frontier / 2 ^ 16 = written.length := by
      rw [frontier, h.page.id_eq]
      omega
    have hrest : w.frontier % 2 ^ 16 = w.page.recordCount := by
      rw [frontier]
      omega
    rw [hpage, hrest, hrecord]
  · rw [frontier, frontier, hid, hcount]
    omega

/-- What is left of an append that is not refused. -/
theorem append_eq {bytes : Bytes} (hbytes : bytes.length ≤ maxRecord)
    (hlimit : w.page.pageId < pageLimit) :
    (HeapWriter.append bytes).run w =
      (if bytes.length < SlottedPage.maxRecordSize then do
        if w.page.freeSpace < (0 :: bytes).length + 4 then modify HeapWriter.flush
        let slot ← HeapWriter.insert (0 :: bytes)
        return (← get).page.pageId * 2 ^ 16 ||| slot
      else do
        modify HeapWriter.flush
        let start := (← get).page.pageId * 2 ^ 16
        let count := (bytes.length + (fragmentSize - 1)) / fragmentSize
        HeapWriter.appendChain bytes.length count 0 (Chunks.chunks fragmentSize bytes)
        return start : Fallible Error HeapWriter ℕ).run w := by
  rw [HeapWriter.append, run_bind]
  dsimp only [run_get]
  rw [if_neg (not_lt.mpr hbytes), if_neg (not_le.mpr hlimit)]

/-- **An append that is refused** leaves the writer as it is. -/
theorem append_refused {bytes : Bytes} (h : maxRecord < bytes.length ∨ pageLimit ≤ w.page.pageId) :
    ∃ e, (HeapWriter.append bytes).run w = (.error (.invalid e), w) := by
  rw [HeapWriter.append, run_bind]
  dsimp only [run_get]
  by_cases hbytes : maxRecord < bytes.length
  · rw [if_pos hbytes]
    exact ⟨_, rfl⟩
  · rw [if_neg hbytes, if_pos (h.resolve_left hbytes)]
    exact ⟨_, rfl⟩

/-- **An append within the limits succeeds.** -/
theorem Paged.append (h : w.Paged written) {bytes : Bytes} (hbytes : bytes.length ≤ maxRecord)
    (hlimit : w.page.pageId < pageLimit) :
    ∃ location w' written', (append bytes).run w = (.ok location, w') ∧
      Appended w w' written written' bytes location := by
  have hslot := h.page.recordCount_lt
  have hid := h.page.id_eq
  have hfew : written.length < 2 ^ 40 := hid ▸ hlimit
  have hlimitEq : pageLimit = 2 ^ 40 := rfl
  have hsizes : SlottedPage.maxRecordSize = 8148 ∧ fragmentSize = 8135 := ⟨rfl, rfl⟩
  have hmax : maxRecord = 16777216 := rfl
  obtain ⟨written₁, hpaged, hflushed, hempty, hlsn, hlength⟩ := h.flush (by omega)
  have hid₁ := hpaged.page.id_eq
  have hcount₁ : w.flush.page.recordCount = 0 := hempty.count
  have hfrontier : w.frontier ≤ w.flush.frontier := by
    rw [frontier, frontier, hcount₁, hid₁, hid, hlength]
    split <;> omega
  have hinside : w.flush.frontier < 2 ^ 56 ↔
      ¬ (w.page.pageId + 1 = pageLimit ∧ w.page.recordCount ≠ 0) := by
    rw [frontier, hcount₁, hid₁, hlength, hid, hlimitEq]
    split <;> omega
  have hstart := append_eq hbytes hlimit
  by_cases hsmall : bytes.length < SlottedPage.maxRecordSize
  · rw [if_pos hsmall] at hstart
    by_cases hfree : w.page.freeSpace < (0 :: bytes).length + 4
    · -- the page is full, and the record goes on the next one
      have hroom : (0 :: bytes).length + 4 ≤ w.flush.page.freeSpace := by
        rw [hempty.freeSpace_eq, List.length_cons]
        have hroom : SlottedPage.room [] = 8152 := rfl
        omega
      obtain ⟨hrun, hpaged', hkept, hstored, hbehind⟩ := hpaged.appended_insert hsmall hroom
      refine ⟨_, _, written₁, hstart.trans ?_, hpaged', hflushed.trans hkept, hstored, hfrontier,
        hbehind, hlsn, hinside.trans (not_congr ?_)⟩
      · rw [if_pos hfree]
        exact run_bind_eq_ok.mpr ⟨(), w.flush, rfl, hrun⟩
      · rw [Overruns, ← and_assoc]
        exact (and_iff_left ⟨hbytes, Or.inr hfree⟩).symm
    · obtain ⟨hrun, hpaged', hkept, hstored, hbehind⟩ := h.appended_insert hsmall (not_lt.mp hfree)
      refine ⟨_, _, written, hstart.trans ?_, hpaged', hkept, hstored, le_rfl, hbehind, rfl, ?_⟩
      · rw [if_neg hfree]
        exact hrun
      · refine iff_of_true ?_ ?_
        · rw [frontier, hid]
          omega
        · rintro ⟨-, -, -, hlarge | hfull⟩
          · exact absurd hsmall (not_lt.mpr hlarge)
          · exact hfree hfull
  · rw [if_neg hsmall] at hstart
    have hchunks := @Chunks.length_chunks _ fragmentSize (by decide) bytes
    have hmany : (Chunks.chunks fragmentSize bytes).length ≤ 2063 := by
      rw [hchunks, hsizes.2]
      omega
    have hsized : ∀ chunk ∈ Chunks.chunks fragmentSize bytes, chunk.length ≤ fragmentSize :=
      fun chunk hchunk => Chunks.length_le_of_mem_chunks (by decide) hchunk
    obtain ⟨w', written', hrun, hpaged', hkept, hempty', hlsn', hlength', hfragments⟩ :=
      @Paged.appendChain _ _ hpaged hempty bytes.length
        ((bytes.length + (fragmentSize - 1)) / fragmentSize) 0 _ hsized
        (by split at hlength <;> omega)
    have hlarge : SlottedPage.maxRecordSize ≤ bytes.length := not_lt.mp hsmall
    have hstartEq : w.flush.page.pageId * 2 ^ 16 = w.flush.frontier := by
      rw [frontier, hcount₁, Nat.add_zero]
    have hid' := hpaged'.page.id_eq
    have hcount' : w'.page.recordCount = 0 := hempty'.count
    refine ⟨w.flush.page.pageId * 2 ^ 16, w', written', hstart.trans ?_, hpaged',
      hflushed.trans hkept, ?_, ?_, ?_, hlsn'.trans hlsn, ?_⟩
    · refine run_bind_eq_ok.mpr ⟨(), w.flush, rfl, ?_⟩
      refine run_bind_eq_ok.mpr ⟨w.flush, w.flush, rfl, ?_⟩
      exact run_bind_eq_ok.mpr ⟨(), w', hrun, rfl⟩
    · refine Or.inr ⟨hlarge, hbytes, Nat.mul_mod_left _ _, fun index chunk hchunk => ?_⟩
      have hfragment := hfragments index chunk hchunk
      rw [Nat.zero_add] at hfragment
      rw [Nat.mul_div_cancel _ (by decide), hid₁]
      exact hfragment
    · rw [hstartEq]
      exact hfrontier
    · have hpositive : 0 < (Chunks.chunks fragmentSize bytes).length := by
        refine List.length_pos_iff.mpr (Chunks.chunks_ne_nil ?_)
        rintro rfl
        rw [List.length_nil] at hlarge
        omega
      rw [frontier, hid', hcount', hid₁, hlength']
      omega
    · rw [hstartEq, hinside, Overruns, ← and_assoc]
      exact not_congr (and_iff_left ⟨hbytes, Or.inl hlarge⟩).symm

end Steps

end HeapWriter

end EveDB
