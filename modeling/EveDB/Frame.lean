import EveDB.Codec
import EveDB.Library.TornLog

/-!
# Frames

The self-delimiting, checksummed record of the write-ahead log, the catalog file
and the history segments (`storage/frame.rs`): a 32-byte header, the payload, and
a trailer that is written last.

`Frame.read` reports an incomplete frame as `none` and a complete but damaged one
as an error. On the frames the engine writes it obeys the laws of
`TornLog.Format.Lawful` (`Frame.lawful`), so a file of frames that lost its tail
reads as the frames that are whole.
-/

namespace EveDB

/-- A frame: what it is, the sequence it belongs to, and its payload. -/
structure Frame where
  /-- 1 a checkpoint root, 2 a transaction, 4 a catalog; history segments use others. -/
  kind : ℕ
  /-- A commit sequence. -/
  lsn : ℕ
  payload : Bytes
  deriving DecidableEq, Repr

namespace Frame

/-- `EVFR`. -/
def magic : Bytes := [69, 86, 70, 82]

/-- `EVCOMMIT`. -/
def trailer : Bytes := [69, 86, 67, 79, 77, 77, 73, 84]

/-- The part of the header its own checksum covers. -/
def headerFields (f : Frame) : Bytes :=
  magic ++ (Encoder.u16 1 ++ (Encoder.u16 f.kind ++ (Encoder.u64 f.lsn ++
    (Encoder.u64 f.payload.length ++ Encoder.u32 (crc32c f.payload).toNat))))

/-- The 32 header bytes. -/
def header (f : Frame) : Bytes :=
  f.headerFields ++ Encoder.u32 (crc32c f.headerFields).toNat

/-- The bytes of a frame. -/
def bytes (f : Frame) : Bytes := f.header ++ (f.payload ++ trailer)

/-- Encodes a frame, unless its payload is too large. -/
def encode (kind lsn : ℕ) (payload : Bytes) : Result Bytes :=
  if payload.length > maxFrame then .error (.invalid "transaction exceeds 64 MiB")
  else .ok (Frame.mk kind lsn payload).bytes

/-- Validates a header and returns the payload length it declares. -/
def headerLength (header : Bytes) : Result ℕ :=
  if header.take 4 ≠ magic ∨ (header.drop 4).take 2 ≠ Encoder.u16 1 ∨
      (crc32c (header.take 28)).toNat ≠ LittleEndian.decode ((header.drop 28).take 4) then
    corrupt "invalid frame header or checksum"
  else
    let length := LittleEndian.decode ((header.drop 16).take 8)
    if length > maxFrame then corrupt "oversized frame" else .ok length

/-- Puts a frame together from a validated header, its payload and its trailer. -/
def assemble (header payload last : Bytes) : Result Frame :=
  if last ≠ trailer ∨
      (crc32c payload).toNat ≠ LittleEndian.decode ((header.drop 24).take 4) then
    corrupt "invalid committed frame payload or trailer"
  else
    .ok { kind := LittleEndian.decode ((header.drop 6).take 2)
          lsn := LittleEndian.decode ((header.drop 8).take 8), payload }

/-- Reads the first frame of `data`, and returns the bytes behind it. An empty or
incomplete tail is `none`; a complete frame with a bad checksum is an error. -/
def read (data : Bytes) : Result (Option (Frame × Bytes)) :=
  if data.length < 32 then .ok none
  else do
    let length ← headerLength (data.take 32)
    if data.length < 40 + length then return none
    let frame ← assemble (data.take 32) ((data.drop 32).take length)
      ((data.drop (32 + length)).take 8)
    return some (frame, data.drop (40 + length))

/-- The frame format as a format of log records. -/
def format : TornLog.Format Frame Error := { encode := Frame.bytes, read := Frame.read }

/-- A frame the engine can write. -/
structure Valid (f : Frame) : Prop where
  kind_lt : f.kind < 2 ^ 16
  lsn_lt : f.lsn < 2 ^ 64
  length_le : f.payload.length ≤ maxFrame

/-! ### What the header says -/

section Header

variable {f : Frame}

@[simp] theorem length_headerFields (f : Frame) : f.headerFields.length = 28 := by
  simp [headerFields, magic]

@[simp] theorem length_header (f : Frame) : f.header.length = 32 := by
  simp [header]

@[simp] theorem length_bytes (f : Frame) : f.bytes.length = 40 + f.payload.length := by
  simp [bytes, trailer]
  omega

/-- What `encode` returns are the bytes of the frame. -/
theorem encode_eq_ok {f : Frame} {piece : Bytes} (h : encode f.kind f.lsn f.payload = .ok piece) :
    f.payload.length ≤ maxFrame ∧ piece = f.bytes := by
  rw [encode] at h
  split at h
  · cases h
  · next hle =>
    cases h
    exact ⟨not_lt.mp hle, rfl⟩

/-- The six fields of the header, as the slices the reader takes. -/
theorem header_slices (f : Frame) :
    f.header.take 4 = magic ∧ (f.header.drop 4).take 2 = Encoder.u16 1 ∧
    (f.header.drop 6).take 2 = Encoder.u16 f.kind ∧
    (f.header.drop 8).take 8 = Encoder.u64 f.lsn ∧
    (f.header.drop 16).take 8 = Encoder.u64 f.payload.length ∧
    (f.header.drop 24).take 4 = Encoder.u32 (crc32c f.payload).toNat ∧
    f.header.take 28 = f.headerFields ∧
    (f.header.drop 28).take 4 = Encoder.u32 (crc32c f.headerFields).toNat := by
  have h4 : magic.length = 4 := rfl
  refine ⟨?_, ?_, ?_, ?_, ?_, ?_, ?_, ?_⟩ <;>
    simp [header, headerFields, List.take_append, List.drop_append, h4,
      List.take_of_length_le, List.drop_of_length_le]

theorem headerLength_header (hf : f.Valid) : headerLength f.header = .ok f.payload.length := by
  obtain ⟨hmagic, hversion, -, -, hlength, -, hfields, hcrc⟩ := header_slices f
  have hlt : f.payload.length < 256 ^ 8 :=
    lt_of_le_of_lt hf.length_le (by decide)
  have hu32 : LittleEndian.decode (Encoder.u32 (crc32c f.headerFields).toNat) =
      (crc32c f.headerFields).toNat :=
    LittleEndian.decode_encode_of_lt (crc32c f.headerFields).toNat_lt
  rw [headerLength, hmagic, hversion, hfields, hcrc, hlength, hu32, Encoder.u64,
    LittleEndian.decode_encode_of_lt hlt]
  simp [not_lt.mpr hf.length_le]

theorem assemble_header (hf : f.Valid) : assemble f.header f.payload trailer = .ok f := by
  obtain ⟨-, -, hkind, hlsn, -, hcrc, -, -⟩ := header_slices f
  have hu32 : LittleEndian.decode (Encoder.u32 (crc32c f.payload).toNat) =
      (crc32c f.payload).toNat :=
    LittleEndian.decode_encode_of_lt (crc32c f.payload).toNat_lt
  have hk : f.kind < 256 ^ 2 := hf.kind_lt
  have hl : f.lsn < 256 ^ 8 := lt_of_lt_of_le hf.lsn_lt (by decide)
  rw [assemble, hkind, hlsn, hcrc, hu32, Encoder.u16, Encoder.u64,
    LittleEndian.decode_encode_of_lt hk, LittleEndian.decode_encode_of_lt hl]
  simp

end Header

/-! ### The laws of the format -/

/-- Behind the header of a frame, the reader waits for the whole of it. -/
theorem read_of_take {f : Frame} (hf : f.Valid) {data : Bytes}
    (hlen : 32 ≤ data.length) (h : data.take 32 = f.header) :
    read data = if data.length < 40 + f.payload.length then .ok none else do
      let frame ← assemble f.header ((data.drop 32).take f.payload.length)
        ((data.drop (32 + f.payload.length)).take 8)
      return some (frame, data.drop (40 + f.payload.length)) := by
  rw [read, if_neg (by omega), h, headerLength_header hf, ok_bind]
  split <;> rfl

/-- **A frame is read back** whatever follows it. -/
theorem read_bytes {f : Frame} (hf : f.Valid) (rest : Bytes) :
    read (f.bytes ++ rest) = .ok (some (f, rest)) := by
  have h32 : (f.bytes ++ rest).take 32 = f.header := by
    rw [bytes, List.append_assoc, List.take_append_of_le_length (by simp),
      List.take_of_length_le (by simp)]
  have hdrop : (f.bytes ++ rest).drop 32 = f.payload ++ (trailer ++ rest) := by
    rw [bytes, List.append_assoc, List.append_assoc, List.drop_left' (by simp)]
  have hpayload : ((f.bytes ++ rest).drop 32).take f.payload.length = f.payload := by
    rw [hdrop, List.take_left]
  have htrailer : ((f.bytes ++ rest).drop (32 + f.payload.length)).take 8 = trailer := by
    rw [← List.drop_drop, hdrop, List.drop_left]
    rfl
  have hrest : (f.bytes ++ rest).drop (40 + f.payload.length) = rest :=
    List.drop_left' (by simp)
  rw [read_of_take hf (by simp; omega) h32, if_neg (by simp), hpayload, htrailer, hrest,
    assemble_header hf]
  rfl

/-- **Every proper prefix of a frame is an incomplete tail.** -/
theorem read_prefix {f : Frame} (hf : f.Valid) {t : Bytes} (ht : t <+: f.bytes)
    (hne : t ≠ f.bytes) : read t = .ok none := by
  have hlt : t.length < f.bytes.length :=
    lt_of_le_of_ne ht.length_le fun h => hne (ht.eq_of_length h)
  by_cases hshort : t.length < 32
  · rw [read, if_pos hshort]
  have h32 : t.take 32 = f.header := by
    rw [List.prefix_iff_eq_take.mp ht, List.take_take, min_eq_left (by omega), bytes,
      List.take_left' (by simp)]
  rw [read_of_take hf (by omega) h32, if_pos (by simpa using hlt)]

theorem lawful : format.Lawful Valid where
  encode_ne_nil {f} _ h := by
    have hlen := length_bytes f
    rw [show f.bytes = [] from h, List.length_nil] at hlen
    omega
  read_encode rest hf := read_bytes hf rest
  read_prefix hf ht hne := read_prefix hf ht hne
  read_nil := rfl

end Frame

end EveDB
