import EveDB.Storage.Page

/-!
# A page is a list of optional records

What a page holds (`SlottedPage.Holds`): the header is in order, the directory lists the records
from the end of the page down without gaps (`SlottedPage.Laid`), and the checksum is right.
Decoding accepts exactly the pages that hold something (`SlottedPage.fromBytes_eq_ok`), and what
they hold is what `get` returns.

Each operation keeps a page in order and does to its records what its name says; only `insert`
extends a page in place, the others build it again from the records it holds. The main result
(`SlottedPage.runs_as_slots`) takes this over runs, from a new page and from any page that
decoding accepts.
-/

namespace EveDB

namespace SlottedPage

/-! ### Reading behind a write -/

section Write

variable {page : SlottedPage} {pos off n : ℕ}

theorem slice_write {data : Bytes} (h : pos + data.length ≤ 8192) :
    (page.write pos data).slice pos data.length = data :=
  Buffer.slice_write (page.size ▸ h)

theorem slice_write_of_apart {data : Bytes} (h : pos + data.length ≤ 8192)
    (hapart : off + n ≤ pos ∨ pos + data.length ≤ off) :
    (page.write pos data).slice off n = page.slice off n :=
  Buffer.slice_write_of_apart (page.size ▸ h) hapart

theorem slice_writeU16_of_apart {v : ℕ} (h : pos + 2 ≤ 8192)
    (hapart : off + n ≤ pos ∨ pos + 2 ≤ off) :
    (page.writeU16 pos v).slice off n = page.slice off n :=
  slice_write_of_apart (by rwa [Encoder.length_u16]) (by rwa [Encoder.length_u16])

theorem readU16_writeU16 {v : ℕ} (h : pos + 2 ≤ 8192) (hv : v < 65536) :
    (page.writeU16 pos v).readU16 pos = v := by
  have hlen : (Encoder.u16 v).length = 2 := Encoder.length_u16 v
  have hslice : (page.writeU16 pos v).slice pos 2 = Encoder.u16 v := by
    rw [writeU16, ← hlen, slice_write (by rwa [hlen])]
  rw [readU16, hslice]
  exact LittleEndian.decode_encode_of_lt hv

theorem readU16_writeU16_of_apart {v : ℕ} (h : pos + 2 ≤ 8192)
    (hapart : off + 2 ≤ pos ∨ pos + 2 ≤ off) :
    (page.writeU16 pos v).readU16 off = page.readU16 off := by
  rw [readU16, slice_writeU16_of_apart h hapart, readU16]

theorem readU16_write_of_apart {data : Bytes} (h : pos + data.length ≤ 8192)
    (hapart : off + 2 ≤ pos ∨ pos + data.length ≤ off) :
    (page.write pos data).readU16 off = page.readU16 off := by
  rw [readU16, slice_write_of_apart h hapart, readU16]

theorem slice_refreshChecksum (hapart : off + n ≤ 32 ∨ 36 ≤ off) :
    page.refreshChecksum.slice off n = page.slice off n :=
  slice_write_of_apart (by rw [Encoder.length_u32]; decide) (by rwa [Encoder.length_u32])

theorem readU16_refreshChecksum (hapart : off + 2 ≤ 32 ∨ 36 ≤ off) :
    page.refreshChecksum.readU16 off = page.readU16 off := by
  rw [readU16, slice_refreshChecksum hapart, readU16]

/-- **A refreshed checksum is the one the page should carry.** -/
theorem storedChecksum_refreshChecksum (page : SlottedPage) :
    page.refreshChecksum.storedChecksum = page.refreshChecksum.computedChecksum.toNat := by
  have hlen (v : ℕ) : 32 + (Encoder.u32 v).length ≤ page.bytes.length := by
    rw [Encoder.length_u32, page.size]
    decide
  have hcomputed : page.refreshChecksum.computedChecksum = page.computedChecksum := by
    have htake := Buffer.take_write (Nat.le_refl 32) (hlen page.computedChecksum.toNat)
    have hdrop := Buffer.drop_write (n := 36) (by rw [Encoder.length_u32])
      (hlen page.computedChecksum.toNat)
    rw [computedChecksum, computedChecksum, refreshChecksum, write, htake, hdrop]
  have hslice : page.refreshChecksum.slice 32 4 = Encoder.u32 page.computedChecksum.toNat := by
    have h := Buffer.slice_write (hlen page.computedChecksum.toNat)
    rwa [Encoder.length_u32] at h
  rw [storedChecksum, hslice, hcomputed]
  exact LittleEndian.decode_encode_of_lt page.computedChecksum.toNat_lt

end Write

/-! ### What a page holds -/

/-- **The records of the slots from `slot` on lie packed below `stop`**, down to `upper`, where
the directory says they are. -/
inductive Laid (page : SlottedPage) : ℕ → ℕ → List (Option Bytes) → ℕ → Prop
  | nil (slot stop : ℕ) : Laid page slot stop [] stop
  | removed {slot stop upper : ℕ} {records : List (Option Bytes)}
      (location : page.recordLocation slot = (0, 0))
      (rest : Laid page (slot + 1) stop records upper) : Laid page slot stop (none :: records) upper
  | live {slot offset upper : ℕ} {record : Bytes} {records : List (Option Bytes)}
      (location : page.recordLocation slot = (offset, record.length))
      (stored : page.slice offset record.length = record)
      (rest : Laid page (slot + 1) offset records upper) :
      Laid page slot (offset + record.length) (some record :: records) upper

/-- **The page holds the records.** -/
structure Holds (page : SlottedPage) (records : List (Option Bytes)) : Prop where
  magic : page.slice 0 4 = SlottedPage.magic
  version : page.readU16 4 = 2
  declared : page.readU16 6 = 8192
  reserved : page.readU16 22 = 0
  padding : page.slice 36 4 = [0, 0, 0, 0]
  count : page.readU16 16 = records.length
  lower : page.readU16 18 = 40 + 4 * records.length
  fits : page.readU16 18 ≤ page.readU16 20
  laid : page.Laid 0 8192 records (page.readU16 20)
  checksum : page.storedChecksum = page.computedChecksum.toNat

/-- The bytes of the records. -/
def used (records : List (Option Bytes)) : ℕ :=
  (records.map fun record => (record.map List.length).getD 0).sum

@[simp] theorem used_append (as bs : List (Option Bytes)) :
    used (as ++ bs) = used as + used bs := by
  rw [used, List.map_append, List.sum_append, used, used]

section Laid

variable {page page' : SlottedPage} {slot stop upper : ℕ} {records records' : List (Option Bytes)}

/-- The records take up what is between the two ends. -/
theorem Laid.stop_eq (h : page.Laid slot stop records upper) : stop = upper + used records := by
  induction h with
  | nil slot stop => rfl
  | removed location rest ih => simpa [used] using ih
  | live location stored rest ih =>
    rw [ih]
    simp only [used, List.map_cons, List.sum_cons, Option.map_some, Option.getD_some]
    omega

theorem Laid.append {upper' : ℕ} (h : page.Laid slot stop records upper)
    (h' : page.Laid (slot + records.length) upper records' upper') :
    page.Laid slot stop (records ++ records') upper' := by
  induction h with
  | nil slot stop => exact h'
  | removed location rest ih =>
    exact .removed location
      (ih (by rwa [List.length_cons, Nat.add_comm _ 1, ← Nat.add_assoc] at h'))
  | live location stored rest ih =>
    exact .live location stored
      (ih (by rwa [List.length_cons, Nat.add_comm _ 1, ← Nat.add_assoc] at h'))

/-- **Only the directory entries and the records matter.** -/
theorem Laid.congr (h : page.Laid slot stop records upper)
    (hdirectory : ∀ i < slot + records.length, slot ≤ i →
      page'.recordLocation i = page.recordLocation i)
    (hrecords : ∀ off n, upper ≤ off → off + n ≤ stop → page'.slice off n = page.slice off n) :
    page'.Laid slot stop records upper := by
  induction h with
  | nil slot stop => exact .nil slot stop
  | removed location rest ih =>
    rw [List.length_cons] at hdirectory
    refine .removed (by rw [hdirectory _ (by omega) le_rfl, location]) (ih ?_ hrecords)
    exact fun i hi hle => hdirectory i (by omega) (by omega)
  | live location stored rest ih =>
    rw [List.length_cons] at hdirectory
    have hle := rest.stop_eq
    refine .live (by rw [hdirectory _ (by omega) le_rfl, location])
      (by rw [hrecords _ _ (by omega) le_rfl, stored]) (ih ?_ ?_)
    · exact fun i hi hle => hdirectory i (by omega) (by omega)
    · exact fun off n hle hstop => hrecords off n hle (by omega)

/-- What the directory says of a slot. -/
theorem Laid.location (h : page.Laid slot stop records upper) {i : ℕ} {record : Option Bytes}
    (hi : records[i]? = some record) :
    (record = none ∧ page.recordLocation (slot + i) = (0, 0)) ∨
    ∃ data offset, record = some data ∧ upper ≤ offset ∧
      page.recordLocation (slot + i) = (offset, data.length) ∧
      page.slice offset data.length = data := by
  induction h generalizing i with
  | nil slot stop => cases hi
  | removed location rest ih =>
    cases i with
    | zero =>
      cases hi
      exact Or.inl ⟨rfl, location⟩
    | succ i => simpa only [Nat.add_assoc, Nat.add_comm 1] using ih hi
  | live location stored rest ih =>
    cases i with
    | zero =>
      cases hi
      have := rest.stop_eq
      exact Or.inr ⟨_, _, rfl, by omega, location, stored⟩
    | succ i => simpa only [Nat.add_assoc, Nat.add_comm 1] using ih hi

end Laid

section Holds

variable {page page' : SlottedPage} {records : List (Option Bytes)}

/-- **A page returns the records it holds.** -/
theorem Holds.get (h : page.Holds records) (slot : ℕ) : page.get slot = records[slot]?.join := by
  have hcount : page.recordCount = records.length := h.count
  have hpos : 0 < page.readU16 20 := by
    have := h.fits
    have := h.lower
    omega
  rw [SlottedPage.get, hcount]
  split
  · next hle => rw [List.getElem?_eq_none hle, Option.join_none]
  · next hlt =>
    have hslot : records[slot]? = some records[slot] := List.getElem?_eq_getElem (not_le.mp hlt)
    have hlocation := h.laid.location hslot
    rw [Nat.zero_add] at hlocation
    rw [hslot, Option.join_some]
    rcases hlocation with ⟨hnone, hzero⟩ | ⟨data, offset, hsome, hle, hlocation, hstored⟩
    · rw [hzero, hnone]
      rfl
    · rw [hlocation, hsome]
      dsimp only
      rw [if_neg (by omega), hstored]

/-- The records are those of the slots. -/
theorem Holds.slots (h : page.Holds records) :
    (List.range page.recordCount).map page.get = records := by
  have hcount : page.recordCount = records.length := h.count
  apply List.ext_getElem?
  intro i
  rw [List.getElem?_map, hcount]
  by_cases hlt : i < records.length
  · rw [List.getElem?_range hlt, Option.map_some, h.get, List.getElem?_eq_getElem hlt,
      Option.join_some]
  · rw [List.getElem?_eq_none (by rwa [List.length_range, ← not_lt]),
      List.getElem?_eq_none (not_lt.mp hlt)]
    rfl

/-- Header, directory, free space and records make up the page. -/
theorem Holds.room (h : page.Holds records) :
    40 + 4 * records.length + page.freeSpace + used records = 8192 := by
  have hlaid := h.laid.stop_eq
  have hlower := h.lower
  have hfits := h.fits
  rw [freeSpace, upperOffset, lowerOffset]
  omega

/-- **A page stays in order** when its header stays, the records stay, and one more record is
laid below them. -/
theorem Holds.extend {record : Option Bytes} {upper : ℕ} (h : page.Holds records)
    (hroom : page.readU16 18 + 4 ≤ upper)
    (hheader : ∀ off n, off + n ≤ 16 ∨ (22 ≤ off ∧ off + n ≤ 32) →
      page'.slice off n = page.slice off n)
    (hpadding : page'.slice 36 4 = page.slice 36 4)
    (hdirectory : ∀ off, 40 ≤ off → off + 2 ≤ page.readU16 18 →
      page'.readU16 off = page.readU16 off)
    (hrecords : ∀ off n, page.readU16 20 ≤ off → off + n ≤ 8192 →
      page'.slice off n = page.slice off n)
    (hcount : page'.readU16 16 = records.length + 1)
    (hlower : page'.readU16 18 = page.readU16 18 + 4) (hupper' : page'.readU16 20 = upper)
    (hlaid : page'.Laid records.length (page.readU16 20) [record] upper)
    (hchecksum : page'.storedChecksum = page'.computedChecksum.toNat) :
    page'.Holds (records ++ [record]) ∧ page'.pageId = page.pageId ∧ page'.lsn = page.lsn := by
  have hread (off : ℕ) (hoff : off + 2 ≤ 16 ∨ (22 ≤ off ∧ off + 2 ≤ 32)) :
      page'.readU16 off = page.readU16 off := by
    rw [readU16, hheader off 2 hoff, readU16]
  have hold : page'.Laid 0 8192 records (page.readU16 20) := by
    refine h.laid.congr (fun i hi _ => ?_) hrecords
    have hlower := h.lower
    simp only [recordLocation, headerSize, slotSize]
    rw [hdirectory _ (by omega) (by omega), hdirectory _ (by omega) (by omega)]
  refine ⟨⟨?_, ?_, ?_, ?_, ?_, ?_, ?_, ?_, ?_, hchecksum⟩, ?_, ?_⟩
  · rw [hheader 0 4 (by omega), h.magic]
  · rw [hread 4 (by omega), h.version]
  · rw [hread 6 (by omega), h.declared]
  · rw [hread 22 (by omega), h.reserved]
  · rw [hpadding, h.padding]
  · rw [hcount, List.length_append, List.length_singleton]
  · rw [hlower, h.lower, List.length_append, List.length_singleton]
    omega
  · rw [hlower, hupper']
    exact hroom
  · rw [hupper']
    exact hold.append (by rwa [Nat.zero_add])
  · rw [pageId, pageId, hheader 8 8 (by omega)]
  · rw [lsn, lsn, hheader 24 8 (by omega)]

/-- The page with a record below the others, at the end of the directory. -/
def inserted (page : SlottedPage) (record : Bytes) : SlottedPage :=
  let lower := page.readU16 18
  let offset := page.readU16 20 - record.length
  let page' := ((page.write offset record).writeU16 lower offset).writeU16 (lower + 2) record.length
  (((page'.writeU16 16 (page.readU16 16 + 1)).writeU16 18 (lower + 4)).writeU16 20
    offset).refreshChecksum

theorem Holds.inserted {record : Bytes} (h : page.Holds records)
    (hfree : record.length + 4 ≤ page.freeSpace) :
    (page.inserted record).Holds (records ++ [some record]) ∧
      (page.inserted record).pageId = page.pageId ∧ (page.inserted record).lsn = page.lsn := by
  have hlaid := h.laid.stop_eq
  have hlower := h.lower
  have hcount := h.count
  have hfits := h.fits
  have hfree' : page.freeSpace = page.readU16 20 - page.readU16 18 := rfl
  obtain ⟨offset, hoffset⟩ : ∃ n, page.readU16 20 = n + record.length :=
    ⟨page.readU16 20 - record.length, by omega⟩
  have hoffset' : page.readU16 20 - record.length = offset := by omega
  refine h.extend (show page.readU16 18 + 4 ≤ offset by omega) ?_ ?_ ?_ ?_ ?_ ?_ ?_ ?_ ?_
  all_goals simp only [SlottedPage.inserted, hoffset', hlower, hcount]
  · rintro off n (hoff | hoff)
    · simp (disch := omega) only [slice_refreshChecksum, slice_writeU16_of_apart,
        slice_write_of_apart]
    · simp (disch := omega) only [slice_refreshChecksum, slice_writeU16_of_apart,
        slice_write_of_apart]
  · simp (disch := omega) only [slice_refreshChecksum, slice_writeU16_of_apart,
      slice_write_of_apart]
  · intro off hle hlt
    simp (disch := omega) only [readU16_refreshChecksum, readU16_writeU16_of_apart,
      readU16_write_of_apart]
  · intro off n hle hlt
    simp (disch := omega) only [slice_refreshChecksum, slice_writeU16_of_apart,
      slice_write_of_apart]
  · simp (disch := omega) only [readU16_refreshChecksum, readU16_writeU16_of_apart,
      readU16_writeU16]
  · simp (disch := omega) only [readU16_refreshChecksum, readU16_writeU16_of_apart,
      readU16_writeU16]
  · simp (disch := omega) only [readU16_refreshChecksum, readU16_writeU16]
  · rw [hoffset]
    refine .live ?_ ?_ (.nil _ _)
    · simp (disch := omega) only [recordLocation, headerSize, slotSize, readU16_refreshChecksum,
        readU16_writeU16_of_apart, Nat.mul_comm records.length 4, readU16_writeU16]
    · simp (disch := omega) only [slice_refreshChecksum, slice_writeU16_of_apart, slice_write]
  · exact storedChecksum_refreshChecksum _

/-- The page with a removed slot at the end of the directory. -/
def skipped (page : SlottedPage) : SlottedPage :=
  let lower := page.readU16 18
  let page' := ((page.writeU16 lower 0).writeU16 (lower + 2) 0).writeU16 18 (lower + 4)
  (page'.writeU16 16 (page'.readU16 16 + 1)).refreshChecksum

theorem Holds.skipped (h : page.Holds records) (hfree : 4 ≤ page.freeSpace) :
    page.skipped.Holds (records ++ [none]) ∧
      page.skipped.pageId = page.pageId ∧ page.skipped.lsn = page.lsn := by
  have hlaid := h.laid.stop_eq
  have hlower := h.lower
  have hcount := h.count
  have hfree' : page.freeSpace = page.readU16 20 - page.readU16 18 := rfl
  refine h.extend (show page.readU16 18 + 4 ≤ page.readU16 20 by omega) ?_ ?_ ?_ ?_ ?_ ?_ ?_ ?_ ?_
  all_goals simp only [SlottedPage.skipped, hlower]
  · rintro off n (hoff | hoff)
    · simp (disch := omega) only [slice_refreshChecksum, slice_writeU16_of_apart]
    · simp (disch := omega) only [slice_refreshChecksum, slice_writeU16_of_apart]
  · simp (disch := omega) only [slice_refreshChecksum, slice_writeU16_of_apart]
  · intro off hle hlt
    simp (disch := omega) only [readU16_refreshChecksum, readU16_writeU16_of_apart]
  · intro off n hle hlt
    simp (disch := omega) only [slice_refreshChecksum, slice_writeU16_of_apart]
  · simp (disch := omega) only [readU16_refreshChecksum, readU16_writeU16_of_apart,
      readU16_writeU16, hcount]
  · simp (disch := omega) only [readU16_refreshChecksum, readU16_writeU16_of_apart,
      readU16_writeU16]
  · simp (disch := omega) only [readU16_refreshChecksum, readU16_writeU16_of_apart]
  · refine .removed ?_ (.nil _ _)
    simp (disch := omega) only [recordLocation, headerSize, slotSize, readU16_refreshChecksum,
      readU16_writeU16_of_apart, Nat.mul_comm records.length 4, readU16_writeU16]
  · exact storedChecksum_refreshChecksum _

/-- **Setting the sequence** changes nothing else. -/
theorem Holds.setLsn (h : page.Holds records) (lsn : UInt64) :
    (page.setLsn lsn).Holds records ∧ (page.setLsn lsn).pageId = page.pageId ∧
      (page.setLsn lsn).lsn = lsn.toNat := by
  have hlen : (Encoder.u64 lsn.toNat).length = 8 := Encoder.length_u64 _
  have hslice (off n : ℕ) (hoff : off + n ≤ 24 ∨ 36 ≤ off) :
      (page.setLsn lsn).slice off n = page.slice off n := by
    rw [SlottedPage.setLsn, slice_refreshChecksum (by omega),
      slice_write_of_apart (by omega) (by omega)]
  have hread (off : ℕ) (hoff : off + 2 ≤ 24 ∨ 36 ≤ off) :
      (page.setLsn lsn).readU16 off = page.readU16 off := by
    rw [readU16, hslice off 2 hoff, readU16]
  have hupper : (page.setLsn lsn).readU16 20 = page.readU16 20 := hread 20 (by omega)
  have hlower := h.lower
  have hfits := h.fits
  refine ⟨⟨?_, ?_, ?_, ?_, ?_, ?_, ?_, ?_, ?_, storedChecksum_refreshChecksum _⟩, ?_, ?_⟩
  · rw [hslice 0 4 (by omega), h.magic]
  · rw [hread 4 (by omega), h.version]
  · rw [hread 6 (by omega), h.declared]
  · rw [hread 22 (by omega), h.reserved]
  · rw [hslice 36 4 (by omega), h.padding]
  · rw [hread 16 (by omega), h.count]
  · rw [hread 18 (by omega), h.lower]
  · rw [hread 18 (by omega), hupper]
    exact h.fits
  · rw [hupper]
    refine h.laid.congr (fun i _ _ => ?_) (fun off n hle _ => hslice off n (by omega))
    simp only [recordLocation, headerSize, slotSize]
    rw [hread _ (by omega), hread _ (by omega)]
  · rw [pageId, pageId, hslice 8 8 (by omega)]
  · have hstored : (page.setLsn lsn).slice 24 8 = Encoder.u64 lsn.toNat := by
      rw [SlottedPage.setLsn, slice_refreshChecksum (by omega), ← hlen, slice_write (by omega)]
    rw [SlottedPage.lsn, hstored]
    exact LittleEndian.decode_encode_of_lt lsn.toNat_lt

/-- **A new page** is empty. -/
theorem holds_new (id : UInt64) :
    (new id).Holds [] ∧ (new id).pageId = id.toNat ∧ (new id).lsn = 0 := by
  have hlen : (Encoder.u64 id.toNat).length = 8 := Encoder.length_u64 _
  have hmagic : SlottedPage.magic.length = 4 := rfl
  have hzero (off n : ℕ) (hn : off + n ≤ 8192) :
      (⟨List.replicate pageSize 0, List.length_replicate⟩ : SlottedPage).slice off n =
        List.replicate n 0 := by
    rw [slice, Buffer.slice, List.drop_replicate, List.take_replicate, pageSize,
      min_eq_left (by omega)]
  have hslice (off n : ℕ) (hoff : (16 ≤ off ∧ off + n ≤ 18) ∨ (22 ≤ off ∧ off + n ≤ 32) ∨ 36 ≤ off)
      (hn : off + n ≤ 8192) : (new id).slice off n = List.replicate n 0 := by
    rw [← hzero off n hn]
    simp (disch := omega) only [new, lowerOffset, upperOffset, slice_refreshChecksum,
      slice_writeU16_of_apart, slice_write_of_apart]
  have hupper : (new id).readU16 20 = 8192 := by
    simp (disch := decide) only [new, upperOffset, pageSize, readU16_refreshChecksum,
      readU16_writeU16]
  have hlower : (new id).readU16 18 = 40 := by
    simp (disch := decide) only [new, upperOffset, lowerOffset, headerSize, readU16_refreshChecksum,
      readU16_writeU16_of_apart, readU16_writeU16]
  refine ⟨⟨?_, ?_, ?_, ?_, ?_, ?_, ?_, ?_, ?_, storedChecksum_refreshChecksum _⟩, ?_, ?_⟩
  · simp (disch := omega) only [new, upperOffset, lowerOffset, slice_refreshChecksum,
      slice_writeU16_of_apart, slice_write_of_apart]
    rw [← hmagic, slice_write (by decide)]
  · simp (disch := omega) only [new, upperOffset, lowerOffset, formatVersion,
      readU16_refreshChecksum, readU16_writeU16_of_apart, readU16_write_of_apart, readU16_writeU16]
  · simp (disch := omega) only [new, upperOffset, lowerOffset, pageSize, readU16_refreshChecksum,
      readU16_writeU16_of_apart, readU16_write_of_apart, readU16_writeU16]
  · rw [readU16, hslice 22 2 (by omega) (by omega)]
    rfl
  · exact hslice 36 4 (by omega) (by omega)
  · rw [readU16, hslice 16 2 (by omega) (by omega)]
    rfl
  · exact hlower
  · rw [hlower, hupper]
    decide
  · rw [hupper]
    exact .nil _ _
  · have hstored : (new id).slice 8 8 = Encoder.u64 id.toNat := by
      simp (disch := omega) only [new, upperOffset, lowerOffset, slice_refreshChecksum,
        slice_writeU16_of_apart]
      rw [← hlen, slice_write (by rw [hlen]; decide)]
    rw [pageId, hstored]
    exact LittleEndian.decode_encode_of_lt id.toNat_lt
  · rw [lsn, hslice 24 8 (by omega) (by omega)]
    rfl

end Holds

/-! ### What decoding accepts -/

section Decoding

variable {page : SlottedPage} {records : List (Option Bytes)}

/-- Slots that pass the check are laid. -/
theorem laid_of_checkSlots {upper n slot stop stop' : ℕ} (hstop : stop ≤ 8192)
    (h : page.checkSlots upper n slot stop = .ok stop') :
    ∃ records, records.length = n ∧ page.Laid slot stop records stop' := by
  induction n generalizing slot stop with
  | zero =>
    cases h
    exact ⟨[], rfl, .nil _ _⟩
  | succ n ih =>
    rw [checkSlots] at h
    rcases hlocation : page.recordLocation slot with ⟨offset, length⟩
    rw [hlocation] at h
    dsimp only at h
    split at h
    · next hzero =>
      obtain ⟨rfl, rfl⟩ := hzero
      obtain ⟨records, hlen, hlaid⟩ := ih hstop h
      exact ⟨none :: records, by rw [List.length_cons, hlen], .removed hlocation hlaid⟩
    · split at h
      · cases h
      · next hpacked =>
        rw [not_or, not_not] at hpacked
        obtain ⟨-, rfl⟩ := hpacked
        obtain ⟨records, hlen, hlaid⟩ := ih (by omega) h
        have hrecord : (page.slice offset length).length = length := by
          rw [slice, Buffer.length_slice, page.size, pageSize]
          omega
        refine ⟨some (page.slice offset length) :: records, by rw [List.length_cons, hlen], ?_⟩
        have hlive := @Laid.live page _ _ _ (page.slice offset length) _
          (by rw [hrecord, hlocation]) (by rw [hrecord]) hlaid
        rwa [hrecord] at hlive

/-- Slots that are laid pass the check. -/
theorem Laid.checkSlots {slot stop upper : ℕ} (h : page.Laid slot stop records upper)
    (hpos : 0 < upper) : page.checkSlots upper records.length slot stop = .ok upper := by
  induction h with
  | nil slot stop => rfl
  | removed location rest ih =>
    rw [List.length_cons, SlottedPage.checkSlots, location]
    exact ih hpos
  | live location stored rest ih =>
    have hle := rest.stop_eq
    rw [List.length_cons, SlottedPage.checkSlots, location]
    dsimp only
    rw [if_neg (by omega), if_neg (by omega)]
    exact ih hpos

/-- **Decoding accepts the pages that hold something**, and leaves them as they are. -/
theorem fromBytes_eq_ok {bytes : Bytes} :
    fromBytes bytes = .ok page ↔ page.bytes = bytes ∧ ∃ records, page.Holds records := by
  constructor
  · intro h
    unfold fromBytes at h
    split at h
    · next hsize =>
      dsimp only at h
      split at h
      · cases h
      · next hmagic =>
      split at h
      · cases h
      · next hversion =>
      split at h
      · cases h
      · next hheader =>
      split at h
      · cases h
      · next hbounds =>
      split at h
      · cases h
      · next stop hslots =>
      split at h
      · cases h
      · next hstop =>
      split at h
      · cases h
      · next hchecksum =>
      cases h
      simp only [not_or, not_not, not_lt, headerSize, slotSize, lowerOffset, upperOffset,
        pageSize] at hmagic hversion hheader hbounds hslots hstop hchecksum
      subst hstop
      obtain ⟨records, hlen, hlaid⟩ := laid_of_checkSlots le_rfl hslots
      refine ⟨rfl, records, hmagic, hversion, hheader.1, hheader.2.1, hheader.2.2, hlen.symm, ?_,
        hbounds.2.1, hlaid, hchecksum⟩
      rw [hbounds.1, hlen, Nat.mul_comm]
    · cases h
  · rintro ⟨rfl, records, h⟩
    have hlower := h.lower
    have hfits := h.fits
    have hle := h.laid.stop_eq
    have hcount : page.recordCount = records.length := h.count
    have hslots := h.laid.checkSlots (by omega)
    have hversion : page.readU16 4 = formatVersion := h.version
    have hheader : ¬ (page.readU16 6 ≠ pageSize ∨ page.readU16 22 ≠ 0 ∨
        page.slice 36 4 ≠ [0, 0, 0, 0]) := by
      rw [h.declared, h.reserved, h.padding]
      decide
    have hbounds : ¬ (page.readU16 lowerOffset ≠ headerSize + page.recordCount * slotSize ∨
        page.readU16 upperOffset < page.readU16 lowerOffset ∨
        pageSize < page.readU16 upperOffset) := by
      rw [hcount]
      simp only [lowerOffset, upperOffset, headerSize, slotSize, pageSize]
      omega
    rw [fromBytes, dif_pos page.size, show (⟨page.bytes, page.size⟩ : SlottedPage) = page from rfl]
    dsimp only
    rw [if_neg (not_not.mpr h.magic), if_neg (not_not.mpr hversion), if_neg hheader,
      if_neg hbounds, hcount, upperOffset, pageSize, hslots]
    dsimp only
    rw [if_neg (not_not.mpr rfl), if_neg (not_not.mpr h.checksum)]

end Decoding

/-! ### Operations on what is held -/

/-- The bytes a slot takes up, its directory entry included. -/
def need (record : Option Bytes) : ℕ := (record.map List.length).getD 0 + 4

/-- What all slots take up. -/
def needs (records : List (Option Bytes)) : ℕ := (records.map need).sum

/-- The free space of a page that holds the records. -/
def room (records : List (Option Bytes)) : ℕ := 8152 - needs records

theorem needs_eq (records : List (Option Bytes)) :
    needs records = used records + 4 * records.length := by
  induction records with
  | nil => rfl
  | cons record records ih =>
    simp only [needs, used, need, List.map_cons, List.sum_cons, List.length_cons] at ih ⊢
    omega

/-- Another record in a slot changes what that slot takes up. -/
theorem needs_set {records : List (Option Bytes)} {slot : ℕ} {old : Option Bytes}
    (h : records[slot]? = some old) (new : Option Bytes) :
    needs (records.set slot new) + need old = needs records + need new := by
  induction records generalizing slot with
  | nil => cases h
  | cons record records ih =>
    cases slot with
    | zero =>
      cases h
      simp only [List.set_cons_zero, needs, List.map_cons, List.sum_cons]
      omega
    | succ slot =>
      have := ih h
      simp only [List.set_cons_succ, needs, List.map_cons, List.sum_cons] at this ⊢
      omega

/-- A slot takes up no more than all of them. -/
theorem need_le_needs {records : List (Option Bytes)} {slot : ℕ} {record : Option Bytes}
    (h : records[slot]? = some record) : need record ≤ needs records :=
  List.single_le_sum (fun _ _ => Nat.zero_le _) _ (List.mem_map_of_mem (List.mem_of_getElem? h))

section Operations

variable {page : SlottedPage} {records : List (Option Bytes)}

theorem Holds.needs_add (h : page.Holds records) : needs records + page.freeSpace = 8152 := by
  have := h.room
  rw [needs_eq]
  omega

theorem Holds.freeSpace_eq (h : page.Holds records) :
    page.freeSpace = SlottedPage.room records := by
  have := h.needs_add
  rw [SlottedPage.room]
  omega

/-- **A record that fits is inserted** behind the others. -/
theorem Holds.insert_eq (h : page.Holds records) {record : Bytes}
    (hfree : record.length + 4 ≤ page.freeSpace) :
    page.insert record = (.ok records.length, page.inserted record) := by
  have := h.needs_add
  rw [insert, if_neg (by simp only [maxRecordSize, pageSize, headerSize, slotSize]; omega),
    if_neg (by rw [slotSize]; omega)]
  exact Prod.ext (congrArg Except.ok h.count) rfl

/-- **A record that does not fit** is refused, and the page is left as it was. -/
theorem insert_of_lt {record : Bytes} (hfree : page.freeSpace < record.length + 4) :
    ∃ e, page.insert record = (.error e, page) := by
  rw [insert]
  split
  · exact ⟨_, rfl⟩
  · exact ⟨.full, if_pos hfree⟩

/-- **A slot that fits is appended.** -/
theorem Holds.appendOptional (h : page.Holds records) {record : Option Bytes}
    (hfree : need record ≤ page.freeSpace) :
    ∃ page', page.appendOptional record = (.ok (), page') ∧ page'.Holds (records ++ [record]) ∧
      page'.pageId = page.pageId ∧ page'.lsn = page.lsn := by
  cases record with
  | none =>
    refine ⟨page.skipped, ?_, h.skipped hfree⟩
    have hslot : ¬ page.freeSpace < slotSize := not_lt.mpr hfree
    rw [SlottedPage.appendOptional, if_neg hslot]
    rfl
  | some record =>
    refine ⟨page.inserted record, ?_, h.inserted hfree⟩
    rw [SlottedPage.appendOptional, h.insert_eq hfree]

theorem appendOptional_of_lt {record : Option Bytes} (hfree : page.freeSpace < need record) :
    ∃ e, page.appendOptional record = (.error e, page) := by
  cases record with
  | none => exact ⟨.full, if_pos hfree⟩
  | some record =>
    obtain ⟨e, he⟩ := insert_of_lt hfree
    exact ⟨e, by rw [appendOptional, he]⟩

/-- **Slots are appended as long as they fit**, all of them or none. -/
theorem Holds.appendEach (h : page.Holds records) (more : List (Option Bytes)) :
    if needs more ≤ page.freeSpace then
      ∃ page', SlottedPage.appendEach more page = .ok page' ∧ page'.Holds (records ++ more) ∧
        page'.pageId = page.pageId ∧ page'.lsn = page.lsn
    else ∃ e, SlottedPage.appendEach more page = .error e := by
  induction more generalizing page records with
  | nil =>
    rw [if_pos (show needs [] ≤ page.freeSpace from Nat.zero_le _)]
    exact ⟨page, rfl, by rwa [List.append_nil], rfl, rfl⟩
  | cons record more ih =>
    have hcons : needs (record :: more) = need record + needs more := List.sum_cons
    rw [SlottedPage.appendEach]
    by_cases hfree : need record ≤ page.freeSpace
    · obtain ⟨page', happend, hholds, hid, hlsn⟩ := h.appendOptional hfree
      have hbefore := h.needs_add
      have hafter := hholds.needs_add
      have hsum : needs (records ++ [record]) = needs records + need record := by
        simp only [needs, List.map_append, List.sum_append, List.map_cons, List.map_nil,
          List.sum_singleton]
      have hrest := ih hholds
      rw [happend]
      split
      · next hfits =>
        rw [if_pos (by omega)] at hrest
        obtain ⟨page'', hmore, hholds', hid', hlsn'⟩ := hrest
        rw [List.append_assoc] at hholds'
        exact ⟨page'', hmore, hholds', hid'.trans hid, hlsn'.trans hlsn⟩
      · next hfits =>
        rw [if_neg (by omega)] at hrest
        exact hrest
    · obtain ⟨e, he⟩ := appendOptional_of_lt (not_le.mp hfree)
      rw [he, if_neg (by omega)]
      exact ⟨e, rfl⟩

/-- **A page is rebuilt with another record in a slot** when it fits. -/
theorem Holds.rebuild (h : page.Holds records) (slot : ℕ) (record : Option Bytes) :
    if needs (records.set slot record) ≤ 8152 then
      ∃ page', page.rebuild slot record = .ok page' ∧ page'.Holds (records.set slot record) ∧
        page'.pageId = page.pageId ∧ page'.lsn = page.lsn
    else ∃ e, page.rebuild slot record = .error e := by
  have hcells : ((List.range page.recordCount).map fun index =>
      if index = slot then record else page.get index) = records.set slot record := by
    apply List.ext_getElem?
    intro i
    have hcount : page.recordCount = records.length := h.count
    rw [List.getElem?_map, List.getElem?_set, hcount]
    by_cases hlt : i < records.length
    · rw [List.getElem?_range hlt, Option.map_some]
      rcases eq_or_ne slot i with rfl | hne
      · rw [if_pos rfl, if_pos rfl, if_pos hlt]
      · rw [if_neg hne.symm, if_neg hne, h.get, List.getElem?_eq_getElem hlt, Option.join_some]
    · rw [List.getElem?_eq_none (by rwa [List.length_range, ← not_lt]),
        List.getElem?_eq_none (not_lt.mp hlt)]
      split
      · next heq => rw [if_neg (heq ▸ hlt)]; rfl
      · rfl
  have hword (off : ℕ) (hoff : off + 8 ≤ 8192) :
      (UInt64.ofNat (LittleEndian.decode (page.slice off 8))).toNat =
        LittleEndian.decode (page.slice off 8) := by
    have hlen : (page.slice off 8).length = 8 := by
      rw [slice, Buffer.length_slice, page.size, pageSize]
      omega
    have hlt := LittleEndian.decode_lt (page.slice off 8)
    rw [hlen] at hlt
    rw [UInt64.toNat_ofNat']
    exact Nat.mod_eq_of_lt hlt
  have hid : (UInt64.ofNat page.pageId).toNat = page.pageId := hword 8 (by decide)
  have hlsn : (UInt64.ofNat page.lsn).toNat = page.lsn := hword 24 (by decide)
  obtain ⟨hnew, hnewId, -⟩ := holds_new (UInt64.ofNat page.pageId)
  obtain ⟨hset, hsetId, hsetLsn⟩ := hnew.setLsn (UInt64.ofNat page.lsn)
  have hfree := hset.needs_add
  have happend := hset.appendEach (records.set slot record)
  rw [SlottedPage.rebuild, hcells]
  rw [hsetId, hnewId, hid, hsetLsn, hlsn, List.nil_append] at happend
  have hempty : needs [] = 0 := rfl
  rwa [show ((new (UInt64.ofNat page.pageId)).setLsn (UInt64.ofNat page.lsn)).freeSpace = 8152 by
    omega] at happend

end Operations

/-! ### Runs -/

/-- A call that changes a page. -/
inductive Edit
  | insert (record : Bytes)
  | replace (slot : ℕ) (record : Bytes)
  | remove (slot : ℕ)
  | setLsn (lsn : UInt64)

/-- Makes a call, and returns whether it succeeded beside the page it leaves. -/
def edit (page : SlottedPage) : Edit → Option (Bool × SlottedPage)
  | .insert record => some ((page.insert record).1.isOk, (page.insert record).2)
  | .replace slot record => some ((page.replace slot record).1.isOk, (page.replace slot record).2)
  | .remove slot => page.remove slot
  | .setLsn lsn => some (true, page.setLsn lsn)

/-- Makes calls one after the other. -/
def run : List Edit → SlottedPage → Option (List Bool × SlottedPage)
  | [], page => some ([], page)
  | e :: edits, page => do
    let (done, page) ← page.edit e
    let (answers, page) ← run edits page
    return (done :: answers, page)

/-- **What a page stands for**: its records by slot, and its sequence. -/
structure Slots where
  records : List (Option Bytes)
  lsn : ℕ

namespace Slots

/-- What a call does to the list: a record is appended when it and its directory entry fit, a
live one is overwritten when the new one fits in its place and the free space, or cleared. -/
def edit (slots : Slots) : Edit → Bool × Slots
  | .insert record =>
    if record.length + 4 ≤ room slots.records then
      (true, { slots with records := slots.records ++ [some record] })
    else (false, slots)
  | .replace slot record =>
    match slots.records[slot]?.join with
    | none => (false, slots)
    | some old =>
      if record.length ≤ old.length + room slots.records then
        (true, { slots with records := slots.records.set slot (some record) })
      else (false, slots)
  | .remove slot =>
    match slots.records[slot]?.join with
    | none => (false, slots)
    | some _ => (true, { slots with records := slots.records.set slot none })
  | .setLsn lsn => (true, { slots with lsn := lsn.toNat })

/-- Calls one after the other. -/
def run : List Edit → Slots → List Bool × Slots
  | [], slots => ([], slots)
  | e :: edits, slots =>
    let (done, slots) := slots.edit e
    let (answers, slots) := run edits slots
    (done :: answers, slots)

end Slots

/-- **The page stands for the slots**: decoding accepts its bytes and returns it, `get` returns
the records, and nothing is past the last of them. -/
structure Shows (page : SlottedPage) (slots : Slots) : Prop where
  decodes : fromBytes page.bytes = .ok page
  get_eq : ∀ slot, page.get slot = slots.records[slot]?.join
  count_eq : page.recordCount = slots.records.length
  free_eq : page.freeSpace = room slots.records
  lsn_eq : page.lsn = slots.lsn

section Runs

variable {page : SlottedPage} {slots : Slots}

theorem Holds.shows {records : List (Option Bytes)} (h : page.Holds records) :
    page.Shows ⟨records, page.lsn⟩ :=
  ⟨fromBytes_eq_ok.mpr ⟨rfl, records, h⟩, h.get, h.count, h.freeSpace_eq, rfl⟩

theorem Shows.holds (h : page.Shows slots) : page.Holds slots.records := by
  obtain ⟨-, records, hholds⟩ := fromBytes_eq_ok.mp h.decodes
  have hrecords : records = slots.records := by
    rw [← hholds.slots]
    apply List.ext_getElem?
    intro i
    rw [List.getElem?_map, h.count_eq]
    by_cases hlt : i < slots.records.length
    · rw [List.getElem?_range hlt, Option.map_some, h.get_eq, List.getElem?_eq_getElem hlt,
        Option.join_some]
    · rw [List.getElem?_eq_none (by rwa [List.length_range, ← not_lt]),
        List.getElem?_eq_none (not_lt.mp hlt)]
      rfl
  exact hrecords ▸ hholds

theorem Holds.shows_of {records : List (Option Bytes)} {lsn : ℕ} (h : page.Holds records)
    (hlsn : page.lsn = lsn) : page.Shows ⟨records, lsn⟩ := hlsn ▸ h.shows

/-- **A call on a page is the call on its slots.** A call that fails leaves the page alone. -/
theorem Shows.edit (h : page.Shows slots) (e : Edit) :
    ∃ page', page.edit e = some ((slots.edit e).1, page') ∧ page'.Shows (slots.edit e).2 ∧
      page'.pageId = page.pageId ∧ ((slots.edit e).1 = false → page' = page) := by
  have hholds := h.holds
  have hneeds := hholds.needs_add
  have hroom : room slots.records = page.freeSpace := h.free_eq.symm
  cases e with
  | insert record =>
    rw [Slots.edit, hroom]
    by_cases hfree : record.length + 4 ≤ page.freeSpace
    · obtain ⟨hinserted, hid, hlsn⟩ := hholds.inserted hfree
      rw [if_pos hfree]
      refine ⟨page.inserted record, ?_, hinserted.shows_of (hlsn.trans h.lsn_eq), hid, ?_⟩
      · rw [SlottedPage.edit, hholds.insert_eq hfree]
        rfl
      · rintro ⟨⟩
    · obtain ⟨err, hinsert⟩ := insert_of_lt (not_le.mp hfree)
      rw [if_neg hfree]
      refine ⟨page, ?_, h, rfl, fun _ => rfl⟩
      rw [SlottedPage.edit, hinsert]
      rfl
  | replace slot record =>
    rw [Slots.edit, SlottedPage.edit, SlottedPage.replace, h.get_eq slot]
    rcases hslot : slots.records[slot]?.join with _ | old
    · exact ⟨page, rfl, h, rfl, fun _ => rfl⟩
    · have hold : slots.records[slot]? = some (some old) := Option.join_eq_some_iff.mp hslot
      have hset := needs_set hold (some record)
      have hle := need_le_needs hold
      have hneedOld : need (some old) = old.length + 4 := rfl
      have hneedNew : need (some record) = record.length + 4 := rfl
      have hrebuild := hholds.rebuild slot (some record)
      dsimp only
      rw [hroom]
      by_cases hfree : record.length ≤ old.length + page.freeSpace
      · rw [if_pos (by omega)] at hrebuild
        obtain ⟨page', hrebuilt, hholds', hid, hlsn⟩ := hrebuild
        have hmax : ¬ maxRecordSize < record.length := by
          simp only [maxRecordSize, pageSize, headerSize, slotSize]
          omega
        rw [if_pos hfree, if_neg (by simp), if_neg hmax, hrebuilt]
        refine ⟨page', rfl, hholds'.shows_of (hlsn.trans h.lsn_eq), hid, ?_⟩
        rintro ⟨⟩
      · rw [if_neg (by omega)] at hrebuild
        obtain ⟨err, hrebuilt⟩ := hrebuild
        rw [if_neg hfree, if_neg (by simp), hrebuilt]
        split
        · exact ⟨page, rfl, h, rfl, fun _ => rfl⟩
        · exact ⟨page, rfl, h, rfl, fun _ => rfl⟩
  | remove slot =>
    rw [Slots.edit, SlottedPage.edit, SlottedPage.remove, h.get_eq slot]
    rcases hslot : slots.records[slot]?.join with _ | old
    · exact ⟨page, rfl, h, rfl, fun _ => rfl⟩
    · have hold : slots.records[slot]? = some (some old) := Option.join_eq_some_iff.mp hslot
      have hset := needs_set hold none
      have hneedOld : need (some old) = old.length + 4 := rfl
      have hneedNew : need none = 4 := rfl
      have hrebuild := hholds.rebuild slot none
      rw [if_pos (by omega)] at hrebuild
      obtain ⟨page', hrebuilt, hholds', hid, hlsn⟩ := hrebuild
      rw [if_neg (by simp), hrebuilt]
      refine ⟨page', rfl, hholds'.shows_of (hlsn.trans h.lsn_eq), hid, ?_⟩
      rintro ⟨⟩
  | setLsn lsn =>
    obtain ⟨hset, hid, hlsn⟩ := hholds.setLsn lsn
    refine ⟨page.setLsn lsn, rfl, hset.shows_of hlsn, hid, ?_⟩
    rintro ⟨⟩

/-- What a run of calls leaves. -/
theorem Shows.run (h : page.Shows slots) (edits : List Edit) :
    ∃ page', SlottedPage.run edits page = some ((Slots.run edits slots).1, page') ∧
      page'.Shows (Slots.run edits slots).2 ∧ page'.pageId = page.pageId := by
  induction edits generalizing page slots with
  | nil => exact ⟨page, rfl, h, rfl⟩
  | cons e edits ih =>
    obtain ⟨page₁, hedit, hshows, hid, -⟩ := h.edit e
    obtain ⟨page₂, hrun, hshows', hid'⟩ := ih hshows
    refine ⟨page₂, ?_, hshows', hid'.trans hid⟩
    rw [SlottedPage.run, hedit]
    simp only [Option.bind_eq_bind, Option.bind_some, hrun]
    rfl

/-- **A slotted page is an append-only list of optional records.** A new page stands for the
empty list, and a page that decoding accepts stands for a list. Whatever a page stands for,
every run of calls answers as the list does and leaves a page that stands for what the list has
become, with the identifier it had; and there a record is inserted, in the next slot, exactly
when it and its directory entry fit in the free space, and a call that fails leaves the page. -/
theorem runs_as_slots :
    (∀ id : UInt64, (new id).Shows ⟨[], 0⟩ ∧ (new id).pageId = id.toNat) ∧
    (∀ (bytes : Bytes) (page : SlottedPage), fromBytes bytes = .ok page →
      page.bytes = bytes ∧ ∃ slots, page.Shows slots) ∧
    ∀ (page : SlottedPage) (slots : Slots), page.Shows slots → ∀ edits : List Edit,
      ∃ page', SlottedPage.run edits page = some ((Slots.run edits slots).1, page') ∧
        page'.Shows (Slots.run edits slots).2 ∧ page'.pageId = page.pageId ∧
        (∀ (record : Bytes) (slot : ℕ), (page'.insert record).1 = .ok slot ↔
          record.length + 4 ≤ page'.freeSpace ∧ slot = page'.recordCount) ∧
        ∀ (e : Edit) (page'' : SlottedPage), page'.edit e = some (false, page'') →
          page'' = page' := by
  refine ⟨fun id => ?_, fun bytes page h => ?_, fun page slots h edits => ?_⟩
  · obtain ⟨hholds, hid, hlsn⟩ := holds_new id
    exact ⟨hholds.shows_of hlsn, hid⟩
  · obtain ⟨hbytes, records, hholds⟩ := fromBytes_eq_ok.mp h
    exact ⟨hbytes, _, hholds.shows⟩
  · obtain ⟨page', hrun, hshows, hid⟩ := h.run edits
    refine ⟨page', hrun, hshows, hid, fun record slot => ?_, fun e page'' hedit => ?_⟩
    · by_cases hfree : record.length + 4 ≤ page'.freeSpace
      · rw [hshows.holds.insert_eq hfree, hshows.count_eq]
        constructor
        · rintro ⟨⟩
          exact ⟨hfree, rfl⟩
        · rintro ⟨-, rfl⟩
          rfl
      · obtain ⟨err, hinsert⟩ := insert_of_lt (not_le.mp hfree)
        rw [hinsert]
        constructor
        · rintro ⟨⟩
        · exact fun hfits => absurd hfits.1 hfree
    · obtain ⟨left, hleft, -, -, hfailed⟩ := hshows.edit e
      rw [hleft, Option.some.injEq, Prod.mk.injEq] at hedit
      obtain ⟨hanswer, rfl⟩ := hedit
      exact hfailed hanswer

end Runs

end SlottedPage

end EveDB
