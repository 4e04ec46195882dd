import EveDB.Library.Buffer
import EveDB.Manifest

/-!
# Slotted pages

The fixed-size page of opaque records of `storage/page.rs`. The slot directory grows forward
from the header and the record bytes grow backward from the end; slots are zero-based and stay
valid. A removed slot keeps its place in the directory, with a location of zeros.

A page is changed in place. An operation returns what it answers beside the page it leaves, so
that what a failure leaves behind is said and not assumed; `remove` answers nothing where the
engine would panic.
-/

namespace EveDB

/-- A failure to decode a page or insert a record. -/
inductive PageError
  /-- The input is not exactly one page long. -/
  | invalidSize
  /-- The magic, page size, or reserved header bytes are invalid. -/
  | invalidHeader
  /-- The page uses an unsupported format version. -/
  | unsupportedVersion (version : ℕ)
  /-- The slot directory or record boundaries are inconsistent. -/
  | invalidLayout
  /-- The record cannot fit even on an empty page. -/
  | recordTooLarge
  /-- The page has insufficient space for the record and its slot. -/
  | full
  /-- The checksum does not match the page bytes. -/
  | checksumMismatch
  deriving DecidableEq, Repr

/-- **A page**, exactly one page long. -/
structure SlottedPage where
  bytes : Bytes
  size : bytes.length = pageSize

namespace SlottedPage

/-- The bytes in front of the slot directory. -/
def headerSize : ℕ := 40

/-- The bytes of a directory entry. -/
def slotSize : ℕ := 4

/-- `EVPG`. -/
def magic : Bytes := [69, 86, 80, 71]

/-- The version of the layout that this code writes and reads. -/
def formatVersion : ℕ := 2

/-- Where a page has the number of its slots. -/
def countOffset : ℕ := 16

/-- Where a page says that its directory ends. -/
def lowerOffset : ℕ := 18

/-- Where a page says that its records begin. -/
def upperOffset : ℕ := 20

/-- The largest record that fits on an otherwise empty page. -/
def maxRecordSize : ℕ := pageSize - headerSize - slotSize

variable (page : SlottedPage)

/-! ### Fields -/

/-- The bytes of a page from an offset on. -/
def slice (offset n : ℕ) : Bytes := Buffer.slice page.bytes offset n

/-- Overwrites the bytes of a page from an offset on. -/
def write (offset : ℕ) (data : Bytes) : SlottedPage :=
  ⟨Buffer.write page.bytes offset data, by rw [Buffer.length_write, page.size]⟩

/-- Reads a number of two bytes. -/
def readU16 (offset : ℕ) : ℕ := LittleEndian.decode (page.slice offset 2)

/-- Writes a number of two bytes. -/
def writeU16 (offset value : ℕ) : SlottedPage := page.write offset (Encoder.u16 value)

/-- The identifier assigned when the page was created. -/
def pageId : ℕ := LittleEndian.decode (page.slice 8 8)

/-- The transaction sequence number stored in the page. -/
def lsn : ℕ := LittleEndian.decode (page.slice 24 8)

/-- The allocated slots, including empty records and removed slots. -/
def recordCount : ℕ := page.readU16 countOffset

/-- The unallocated bytes; each new record also needs a directory entry. -/
def freeSpace : ℕ := page.readU16 upperOffset - page.readU16 lowerOffset

/-- Where the directory says the record of a slot is. -/
def recordLocation (slot : ℕ) : ℕ × ℕ :=
  let entry := headerSize + slot * slotSize
  (page.readU16 entry, page.readU16 (entry + 2))

/-- The checksum the page should carry, treating its field as zero. -/
def computedChecksum : UInt32 :=
  crc32c (page.bytes.take 32 ++ ([0, 0, 0, 0] ++ page.bytes.drop 36))

/-- The checksum the page carries. -/
def storedChecksum : ℕ := LittleEndian.decode (page.slice 32 4)

/-- Writes the checksum of the page as it is now. -/
def refreshChecksum : SlottedPage := page.write 32 (Encoder.u32 page.computedChecksum.toNat)

/-! ### Creating and decoding -/

theorem length_zeros : (List.replicate pageSize (0 : UInt8)).length = pageSize :=
  List.length_replicate

/-- An empty page with a caller-assigned identifier. -/
def new (pageId : UInt64) : SlottedPage :=
  let page : SlottedPage := ⟨List.replicate pageSize 0, length_zeros⟩
  let page := page.write 0 magic
  let page := page.writeU16 4 formatVersion
  let page := page.writeU16 6 pageSize
  let page := page.write 8 (Encoder.u64 pageId.toNat)
  let page := page.writeU16 lowerOffset headerSize
  let page := page.writeU16 upperOffset pageSize
  page.refreshChecksum

/-- Checks that the records of `n` slots are packed in reverse slot order below `expectedEnd`,
and returns where the last one starts. -/
def checkSlots (upper : ℕ) : (n slot expectedEnd : ℕ) → Except PageError ℕ
  | 0, _, expectedEnd => .ok expectedEnd
  | n + 1, slot, expectedEnd =>
    let (offset, length) := page.recordLocation slot
    if offset = 0 ∧ length = 0 then checkSlots upper n (slot + 1) expectedEnd
    else if offset < upper ∨ offset + length ≠ expectedEnd then .error .invalidLayout
    else checkSlots upper n (slot + 1) offset

/-- Decodes one page, checking its header and every slot before exposing data. -/
def fromBytes (bytes : Bytes) : Except PageError SlottedPage :=
  if h : bytes.length = pageSize then
    let page : SlottedPage := ⟨bytes, h⟩
    let version := page.readU16 4
    if page.slice 0 4 ≠ magic then .error .invalidHeader
    else if version ≠ formatVersion then .error (.unsupportedVersion version)
    else if page.readU16 6 ≠ pageSize ∨ page.readU16 22 ≠ 0 ∨ page.slice 36 4 ≠ [0, 0, 0, 0] then
      .error .invalidHeader
    else
      let lower := page.readU16 lowerOffset
      let upper := page.readU16 upperOffset
      let directoryEnd := headerSize + page.recordCount * slotSize
      if lower ≠ directoryEnd ∨ upper < lower ∨ pageSize < upper then .error .invalidLayout
      else
        match page.checkSlots upper page.recordCount 0 pageSize with
        | .error e => .error e
        | .ok expectedEnd =>
          if expectedEnd ≠ upper then .error .invalidLayout
          else if page.storedChecksum ≠ page.computedChecksum.toNat then .error .checksumMismatch
          else .ok page
  else .error .invalidSize

/-! ### Operations -/

/-- Sets the transaction sequence number and refreshes the checksum. -/
def setLsn (lsn : UInt64) : SlottedPage := (page.write 24 (Encoder.u64 lsn.toNat)).refreshChecksum

/-- Inserts a record, and answers its slot. -/
def insert (record : Bytes) : Except PageError ℕ × SlottedPage :=
  if maxRecordSize < record.length then (.error .recordTooLarge, page)
  else if page.freeSpace < record.length + slotSize then (.error .full, page)
  else
    let slot := page.recordCount
    let lower := page.readU16 lowerOffset
    let upper := page.readU16 upperOffset
    let offset := upper - record.length
    let page := page.write offset record
    let page := page.writeU16 lower offset
    let page := page.writeU16 (lower + 2) record.length
    let page := page.writeU16 countOffset (slot + 1)
    let page := page.writeU16 lowerOffset (lower + slotSize)
    let page := page.writeU16 upperOffset offset
    (.ok slot, page.refreshChecksum)

/-- The record of a slot, if it is there. -/
def get (slot : ℕ) : Option Bytes :=
  if page.recordCount ≤ slot then none
  else
    let (offset, length) := page.recordLocation slot
    if offset = 0 then none else some (page.slice offset length)

/-- Appends a record, or the slot of a removed one. -/
def appendOptional : Option Bytes → Except PageError Unit × SlottedPage
  | some record =>
    match page.insert record with
    | (.ok _, page) => (.ok (), page)
    | (.error e, page) => (.error e, page)
  | none =>
    if page.freeSpace < slotSize then (.error .full, page)
    else
      let lower := page.readU16 lowerOffset
      let page := page.writeU16 lower 0
      let page := page.writeU16 (lower + 2) 0
      let page := page.writeU16 lowerOffset (lower + slotSize)
      let page := page.writeU16 countOffset (page.recordCount + 1)
      (.ok (), page.refreshChecksum)

/-- Appends slots to a page that is being rebuilt, until one does not fit. -/
def appendEach : List (Option Bytes) → SlottedPage → Except PageError SlottedPage
  | [], page => .ok page
  | record :: records, page =>
    match page.appendOptional record with
    | (.error e, _) => .error e
    | (.ok _, page) => appendEach records page

/-- Builds the page again with another record in a slot, or none. -/
def rebuild (slot : ℕ) (record : Option Bytes) : Except PageError SlottedPage :=
  appendEach
    ((List.range page.recordCount).map fun index => if index = slot then record else page.get index)
    ((new (UInt64.ofNat page.pageId)).setLsn (UInt64.ofNat page.lsn))

/-- Replaces a live record without changing its slot. -/
def replace (slot : ℕ) (record : Bytes) : Except PageError Unit × SlottedPage :=
  if (page.get slot).isNone then (.error .invalidLayout, page)
  else if maxRecordSize < record.length then (.error .recordTooLarge, page)
  else
    match page.rebuild slot (some record) with
    | .error e => (.error e, page)
    | .ok rebuilt => (.ok (), rebuilt)

/-- Removes a live record and compacts its bytes, keeping other slots stable. Answers whether
there was one. -/
def remove (slot : ℕ) : Option (Bool × SlottedPage) :=
  if (page.get slot).isNone then some (false, page)
  else
    match page.rebuild slot none with
    -- removing a record cannot increase the page size
    | .error _ => none
    | .ok rebuilt => some (true, rebuilt)

end SlottedPage

end EveDB
