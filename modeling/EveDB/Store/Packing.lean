import EveDB.Library.RunLength
import EveDB.Store.Checkpoint
import EveDB.Store.Records

/-!
# Packing events

How the record of an event is packed into the payload of its history frame (`pack` in
`snapshot.rs`): the entity, how the record is stored, its length, and the record itself, either
as it is or as its run lengths, whichever is shorter. The reader, `unpack`, gets the record back
either way (`unpack_pack`).
-/

namespace EveDB.Store

/-- Run lengths as bytes: a count and a byte for each run. -/
def encodeRuns (runs : List (ℕ × UInt8)) : Bytes :=
  runs.flatMap fun run => [UInt8.ofNat run.1, run.2]

/-- The run lengths of a record, for a writer that compresses. -/
def packRuns (bytes : Bytes) (compress : Bool) : Bytes :=
  if compress then encodeRuns (RunLength.runs 255 bytes) else []

/-- Whether a record is stored as its run lengths. -/
def useRle (bytes : Bytes) (compress : Bool) : Bool :=
  compress && decide ((packRuns bytes compress).length < bytes.length)

/-- What is stored of a record. -/
def packData (bytes : Bytes) (compress : Bool) : Bytes :=
  if useRle bytes compress then packRuns bytes compress else bytes

/-- Packs the record of an entity. -/
def pack (id : ℕ) (bytes : Bytes) (compress : Bool) : Bytes :=
  Encoder.u64 id ++ (UInt8.ofNat (useRle bytes compress).toNat ::
    (Encoder.u32 bytes.length ++ packData bytes compress))

/-! ### Run lengths -/

section Runs

variable {runs : List (ℕ × UInt8)} {size : ℕ} {bytes : Bytes} {compress : Bool}

theorem even_length_encodeRuns : (encodeRuns runs).length % 2 = 0 := by
  induction runs with
  | nil => rfl
  | cons run runs ih =>
    have hpair : [UInt8.ofNat run.1, run.2].length = 2 := rfl
    rw [encodeRuns, List.flatMap_cons, ← encodeRuns, List.length_append, hpair, Nat.add_mod_left,
      ih]

/-- **Runs that fit are expanded** behind what there is. -/
theorem expandRuns_encodeRuns {result : Bytes} (hcount : ∀ run ∈ runs, 0 < run.1 ∧ run.1 ≤ 255)
    (hsize : result.length + (RunLength.expand runs).length ≤ size) :
    expandRuns size result (encodeRuns runs) = .ok (result ++ RunLength.expand runs) := by
  induction runs generalizing result with
  | nil =>
    rw [show encodeRuns [] = [] from rfl, expandRuns]
    exact congrArg Except.ok (List.append_nil result).symm
  | cons run runs ih =>
    obtain ⟨⟨hpos, hle⟩, hcount⟩ := List.forall_mem_cons.mp hcount
    have htoNat : (UInt8.ofNat run.1).toNat = run.1 := by
      rw [UInt8.toNat_ofNat']
      exact Nat.mod_eq_of_lt (by omega)
    have hzero : UInt8.ofNat run.1 ≠ 0 := by
      intro h
      rw [h] at htoNat
      exact absurd htoNat hpos.ne
    rw [RunLength.expand_cons, List.length_append, List.length_replicate] at hsize
    rw [encodeRuns, List.flatMap_cons, ← encodeRuns]
    change expandRuns size result (UInt8.ofNat run.1 :: run.2 :: encodeRuns runs) = _
    rw [expandRuns, if_neg (by rw [htoNat]; exact not_or.mpr ⟨hzero, by omega⟩), htoNat, ih hcount,
      List.append_assoc, ← RunLength.expand_cons]
    rw [List.length_append, List.length_replicate]
    omega

theorem length_packData_le : (packData bytes compress).length ≤ bytes.length := by
  rw [packData]
  split
  · next h => exact (of_decide_eq_true (Bool.and_eq_true_iff.mp h).2).le
  · exact le_rfl

end Runs

section Records

variable {bytes : Bytes} {compress : Bool} {id : ℕ}

/-- **What is packed is not much longer than the record.** -/
theorem length_pack_le : (pack id bytes compress).length ≤ 13 + bytes.length := by
  have := @length_packData_le bytes compress
  rw [pack, List.length_append, List.length_cons, List.length_append]
  simp only [Encoder.u64, Encoder.u32, LittleEndian.length_encode]
  omega

/-- **The fields of a packed record**, as the slices the reader takes. -/
theorem pack_slices : 13 ≤ (pack id bytes compress).length ∧
    (pack id bytes compress).take 8 = Encoder.u64 id ∧
    ((pack id bytes compress).drop 8).head? = some (UInt8.ofNat (useRle bytes compress).toNat) ∧
    ((pack id bytes compress).drop 9).take 4 = Encoder.u32 bytes.length ∧
    (pack id bytes compress).drop 13 = packData bytes compress := by
  have hid : (Encoder.u64 id).length = 8 := LittleEndian.length_encode 8 id
  have hsize : (Encoder.u32 bytes.length).length = 4 := LittleEndian.length_encode 4 _
  have hdrop : (pack id bytes compress).drop 8 = UInt8.ofNat (useRle bytes compress).toNat ::
      (Encoder.u32 bytes.length ++ packData bytes compress) := List.drop_left' hid
  have htail : (pack id bytes compress).drop 9 =
      Encoder.u32 bytes.length ++ packData bytes compress := by
    rw [← List.drop_drop (i := 1) (j := 8), hdrop, List.drop_one, List.tail_cons]
  refine ⟨?_, List.take_left' hid, ?_, ?_, ?_⟩
  · rw [pack, List.length_append, List.length_cons, List.length_append, hid, hsize]
    omega
  · rw [hdrop, List.head?_cons]
  · rw [htail, List.take_left' hsize]
  · rw [← List.drop_drop (i := 4) (j := 9), htail, List.drop_left' hsize]

/-- **A packed record is unpacked** to the entity and the record. -/
theorem unpack_pack (hid : id < 2 ^ 64) (hbytes : bytes.length ≤ maxRecord) :
    (unpack (pack id bytes compress)).result = .ok (id, bytes) := by
  obtain ⟨hlen, htake, htag, hsize, hdata⟩ := @pack_slices bytes compress id
  have hid' : LittleEndian.decode (Encoder.u64 id) = id :=
    LittleEndian.decode_encode_of_lt (hid.trans_le (by decide))
  have hsize' : LittleEndian.decode (Encoder.u32 bytes.length) = bytes.length :=
    LittleEndian.decode_encode_of_lt (hbytes.trans_lt (by decide))
  unfold unpack
  rw [if_neg (by omega), htake, htag, hsize, hdata, hid', hsize']
  dsimp only
  rw [if_neg (by omega)]
  cases hrle : useRle bytes compress with
  | false =>
    have hverbatim : packData bytes compress = bytes := by rw [packData, hrle]; rfl
    rw [hverbatim]
    simp
  | true =>
    have hruns : packData bytes compress = encodeRuns (RunLength.runs 255 bytes) := by
      rw [packData, hrle, if_pos rfl, packRuns, if_pos (Bool.and_eq_true_iff.mp hrle).1]
    have hexpand : expandRuns bytes.length [] (encodeRuns (RunLength.runs 255 bytes)) =
        .ok bytes := by
      rw [expandRuns_encodeRuns (RunLength.count_mem_runs (by decide) bytes)]
      · rw [RunLength.expand_runs, List.nil_append]
      · rw [RunLength.expand_runs, List.length_nil, Nat.zero_add]
    rw [hruns]
    simp [even_length_encodeRuns, hexpand]

end Records

/-! ### The buffer of the reader -/

/-- Expands run lengths as `expandRuns` does, and lists the buffers on the way. -/
def expandRunsTraced (size : ℕ) : Bytes → Bytes → List Bytes × Result Bytes
  | result, [] => ([], .ok result)
  | _, [_] => ([], corrupt "invalid RLE payload")
  | result, count :: value :: rest =>
    if count = 0 ∨ size < result.length + count.toNat then ([], corrupt "RLE length overflow")
    else
      let longer := result ++ List.replicate count.toNat value
      let traced := expandRunsTraced size longer rest
      (longer :: traced.1, traced.2)

/-- The length a packed record declares. -/
def declaredSize (bytes : Bytes) : ℕ := LittleEndian.decode ((bytes.drop 9).take 4)

/-- Fills the buffer of a record of a declared size, and lists the buffers on the way. -/
def fillTraced (size : ℕ) (tag : Option UInt8) (data : Bytes) : List Bytes × Result Bytes :=
  if tag = some 0 then ([data], .ok data)
  else if tag = some 1 then
    if data.length % 2 ≠ 0 then ([], corrupt "invalid RLE payload")
    else expandRunsTraced size [] data
  else ([], corrupt "unsupported history compression")

/-- **Unpacks a record as `unpack` does**, and lists what the buffer it fills holds on the way. -/
def unpackTraced (bytes : Bytes) : List Bytes × Result (ℕ × Bytes) :=
  if bytes.length < 13 then ([], corrupt "short history record")
  else if maxRecord < declaredSize bytes then ([], corrupt "oversized history record")
  else if (bytes.drop 8).head? = some 0 ∧ (bytes.drop 13).length ≠ declaredSize bytes then
    ([], corrupt "history length mismatch")
  else
    let filled := fillTraced (declaredSize bytes) (bytes.drop 8).head? (bytes.drop 13)
    ([] :: filled.1, do
      let result ← filled.2
      if result.length ≠ declaredSize bytes then corrupt "history length mismatch"
      else return (LittleEndian.decode (bytes.take 8), result))

section Buffers

variable {size : ℕ} {bytes data result : Bytes}

theorem expandRunsTraced_snd (size : ℕ) (result data : Bytes) :
    (expandRunsTraced size result data).2 = expandRuns size result data := by
  fun_induction expandRuns size result data with
  | case1 result => rfl
  | case2 result last => rfl
  | case3 result count value rest hbad => rw [expandRunsTraced, if_pos hbad]
  | case4 result count value rest hfits ih =>
    rw [expandRunsTraced, if_neg hfits]
    exact ih

/-- **Run lengths are never expanded past the size.** -/
theorem length_le_of_mem_expandRunsTraced :
    ∀ buffer ∈ (expandRunsTraced size result data).1, buffer.length ≤ size := by
  fun_induction expandRuns size result data with
  | case1 result => exact List.forall_mem_nil _
  | case2 result last => exact List.forall_mem_nil _
  | case3 result count value rest hbad =>
    rw [expandRunsTraced, if_pos hbad]
    exact List.forall_mem_nil _
  | case4 result count value rest hfits ih =>
    rw [expandRunsTraced, if_neg hfits]
    refine List.forall_mem_cons.mpr ⟨?_, ih⟩
    rw [List.length_append, List.length_replicate]
    exact not_lt.mp (not_or.mp hfits).2

/-- A buffer is filled up to the size. -/
theorem length_le_of_mem_fillTraced {tag : Option UInt8}
    (h : ¬(tag = some 0 ∧ data.length ≠ size)) :
    ∀ buffer ∈ (fillTraced size tag data).1, buffer.length ≤ size := by
  rw [fillTraced]
  split
  · next hzero =>
    refine List.forall_mem_singleton.mpr (le_of_eq ?_)
    by_contra hne
    exact h ⟨hzero, hne⟩
  · split
    · split
      · exact List.forall_mem_nil _
      · exact length_le_of_mem_expandRunsTraced
    · exact List.forall_mem_nil _

/-- What is made of a buffer that has been filled. -/
def checkFilled (bytes result : Bytes) : Result (ℕ × Bytes) :=
  if result.length ≠ declaredSize bytes then corrupt "history length mismatch"
  else return (LittleEndian.decode (bytes.take 8), result)

/-- **Behind its first checks**, the reader asks for a buffer of the declared size, fills it, and
checks how far it got. -/
theorem unpack_eq (hlong : ¬ bytes.length < 13) (hsize : ¬ maxRecord < declaredSize bytes)
    (hverbatim : ¬((bytes.drop 8).head? = some 0 ∧ (bytes.drop 13).length ≠ declaredSize bytes)) :
    unpack bytes = ⟨[.scratch (declaredSize bytes)],
      (fillTraced (declaredSize bytes) (bytes.drop 8).head? (bytes.drop 13)).2 >>=
        checkFilled bytes⟩ := by
  have hfill (filled : Result Bytes) : (do
      Guarded.ask (Request.scratch (declaredSize bytes))
      let result ← (Guarded.lift filled : Reading Bytes)
      if result.length ≠ declaredSize bytes then Guarded.lift (corrupt "history length mismatch")
      else return (LittleEndian.decode (bytes.take 8), result)) =
        ⟨[.scratch (declaredSize bytes)], filled >>= checkFilled bytes⟩ := by
    refine congrArg (Guarded.bind (Guarded.ask (Request.scratch (declaredSize bytes)))) (?_ :
      _ = fun _ => ⟨[], filled >>= checkFilled bytes⟩)
    funext _
    rcases filled with e | result
    · rfl
    · rw [Guarded.lift_ok_bind, ok_bind, checkFilled]
      split
      · rfl
      · rfl
  unfold unpack
  rw [if_neg hlong]
  dsimp only
  rw [← declaredSize, if_neg hsize, if_neg hverbatim, fillTraced]
  -- the record is stored as it is, as run lengths, or in a way the reader does not know
  split
  · exact hfill (.ok (bytes.drop 13))
  split
  · split
    · exact hfill (corrupt "invalid RLE payload")
    · rw [expandRunsTraced_snd]
      exact hfill (expandRuns (declaredSize bytes) [] (bytes.drop 13))
  · exact hfill (corrupt "unsupported history compression")

/-- **The traced reader is the reader.** -/
theorem unpackTraced_snd (bytes : Bytes) : (unpackTraced bytes).2 = (unpack bytes).result := by
  unfold unpackTraced
  split
  · next hshort =>
    unfold unpack
    rw [if_pos hshort]
    rfl
  split
  · next hlong hsize =>
    unfold unpack
    rw [if_neg hlong]
    dsimp only
    rw [← declaredSize, if_pos hsize]
    rfl
  split
  · next hlong hsize hverbatim =>
    unfold unpack
    rw [if_neg hlong]
    dsimp only
    rw [← declaredSize, if_neg hsize, if_pos hverbatim]
    rfl
  · next hlong hsize hverbatim =>
    rw [unpack_eq hlong hsize hverbatim]
    rfl

/-- **Packing loses nothing, and unpacking is strict.** Whatever record of up to 16 MiB an entity
has, and whether the writer compresses or not, the packed record is at most 13 bytes longer and
unpacks to the entity and the record. On any bytes at all, the reader asks for a buffer of the
declared size, which is within 16 MiB, before it has one; the buffer never holds more than that
on the way; and what is returned has the declared size. -/
theorem packing_lossless_and_strict :
    (∀ (id : ℕ) (payload : Bytes) (compress : Bool), id < 2 ^ 64 → payload.length ≤ maxRecord →
        (unpack (pack id payload compress)).result = .ok (id, payload) ∧
          (pack id payload compress).length ≤ 13 + payload.length) ∧
      ∀ bytes : Bytes, (unpackTraced bytes).2 = (unpack bytes).result ∧
        (∀ buffer ∈ (unpackTraced bytes).1, buffer.length ≤ declaredSize bytes ∧
          declaredSize bytes ≤ maxRecord ∧
          (unpack bytes).requests = [.scratch (declaredSize bytes)]) ∧
        ∀ id payload, (unpack bytes).result = .ok (id, payload) →
          payload.length = declaredSize bytes := by
  refine ⟨?_, fun bytes => ⟨unpackTraced_snd bytes, ?_, ?_⟩⟩
  · intro id payload compress hid hpayload
    exact ⟨unpack_pack hid hpayload, length_pack_le⟩
  · intro buffer hbuffer
    unfold unpackTraced at hbuffer
    split at hbuffer
    · exact absurd hbuffer List.not_mem_nil
    split at hbuffer
    · exact absurd hbuffer List.not_mem_nil
    split at hbuffer
    · exact absurd hbuffer List.not_mem_nil
    · next hlong hsize hverbatim =>
      rw [unpack_eq hlong hsize hverbatim]
      refine ⟨?_, not_lt.mp hsize, rfl⟩
      rcases List.mem_cons.mp hbuffer with rfl | hbuffer
      · exact Nat.zero_le _
      · exact length_le_of_mem_fillTraced hverbatim buffer hbuffer
  · intro id payload hok
    rw [← unpackTraced_snd] at hok
    unfold unpackTraced at hok
    split at hok
    · cases hok
    split at hok
    · cases hok
    split at hok
    · cases hok
    · obtain ⟨result, -, hcheck⟩ := bind_eq_ok.mp hok
      split at hcheck
      · cases hcheck
      · next hlength =>
        cases hcheck
        exact not_not.mp hlength

/-- Four equal bytes become one run; run lengths that overrun the declared size are not expanded. -/
theorem packing_lossless_and_strict_runs :
    (unpack [7, 0, 0, 0, 0, 0, 0, 0, 1, 4, 0, 0, 0, 4, 5]).result = .ok (7, [5, 5, 5, 5]) ∧
      (unpackTraced [7, 0, 0, 0, 0, 0, 0, 0, 1, 4, 0, 0, 0, 3, 5, 2, 6]).1 = [[], [5, 5, 5]] ∧
      (unpackTraced [7, 0, 0, 0, 0, 0, 0, 0, 1, 4, 0, 0, 0, 3, 5, 2, 6]).2 =
        corrupt "RLE length overflow" := by
  have hpack := packing_lossless_and_strict.1 7 [5, 5, 5, 5] true (by decide) (by decide)
  have hbytes : pack 7 [5, 5, 5, 5] true = [7, 0, 0, 0, 0, 0, 0, 0, 1, 4, 0, 0, 0, 4, 5] := by
    decide
  rw [hbytes] at hpack
  exact ⟨hpack.1, by decide, by decide⟩

end Buffers

/-! ### The events the engine makes -/

/-- **An event the engine makes**: its numbers are of the width of their type, and its assignments
have passed a schema. A deletion assigns nothing. -/
structure Event.Admitted (event : Event) : Prop where
  typed : event.Typed
  normal : ∃ schema fields, Schema.validate schema = .ok () ∧
    schema.normalize fields false = .ok event.fields

/-- Assignments that pass a schema are not completed, and are not too long. -/
theorem assignments_of_normalize {schema : Schema} {fields out : Fields}
    (h : schema.normalize fields false = .ok out) :
    out = fields ∧ (encodeFields fields).length ≤ maxRecord / 2 := by
  obtain ⟨⟨⟩, -, h⟩ := bind_eq_ok.mp h
  rw [if_neg Bool.false_ne_true, ok_bind] at h
  dsimp only at h
  split at h
  · cases h
  · next hle => exact ⟨(Except.ok.inj h).symm, not_lt.mp hle⟩

namespace Event.Admitted

variable {event : Event}

theorem storable (h : Event.Admitted event) : event.fields.Storable := by
  obtain ⟨schema, fields, hvalid, hnormal⟩ := h.normal
  obtain ⟨heq, -⟩ := assignments_of_normalize hnormal
  refine Fields.storable hvalid ?_ h.typed.2.2.2
  rw [heq]
  exact Schema.checkFields_of_normalize hnormal

theorem length_le (h : Event.Admitted event) : (encodeEvent event).length ≤ maxRecord := by
  obtain ⟨schema, fields, -, hnormal⟩ := h.normal
  obtain ⟨heq, hle⟩ := assignments_of_normalize hnormal
  have hmax : maxRecord = 16 * 1024 * 1024 := rfl
  rw [encodeEvent, heq]
  simp only [List.length_append, Encoder.u64, Encoder.u8, LittleEndian.length_encode]
  omega

/-- **The record of an event is read back**, and scanned for what it is charged for. -/
theorem read_record (h : Event.Admitted event) :
    decodeEvent (encodeEvent event) = .ok event ∧
      recordBytes (encodeEvent event) eventSize = .ok (eventBytes event) := by
  have hread := Reads.event h.typed h.storable
  exact ⟨hread, scan_of_decodeEvent (h.length_le.trans_lt (by decide)) hread⟩

end Event.Admitted

end EveDB.Store
