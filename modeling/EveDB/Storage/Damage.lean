import EveDB.Library.Replaced
import EveDB.Storage.Node
import EveDB.Storage.Slots
import EveDB.Storage.Stream
import Mathlib.Data.Nat.Bitwise

/-!
# Any single damaged byte is detected

The step of CRC32C can be undone: the high bytes of the table entries are all different, so the
high byte of the new state tells which entry was used, and with it the rest of the old state
(`crcUpdate_injective`, `crcUpdate_byte_injective`). A byte string and one that differs from it
in a single byte therefore never have the same checksum (`crc32c_ne_of_replaced`).

Each format covers its bytes in its own way. A frame checks its header and its payload
separately and compares its trailer; a slotted page and an index page store their checksum
among the bytes it is about. Whatever byte is hit, the reader of each of them returns an error
(`single_byte_detected`).
-/

namespace EveDB

/-! ### The checksum -/

section Checksum

/-- A bit step backwards: the high bit tells whether the polynomial has been added. -/
def crcUnbit (value : UInt32) : UInt32 :=
  if value >>> 31 = 0 then value <<< 1 else ((value ^^^ 0x82f63b78) <<< 1) ||| 1

/-- The entry of the table with a high byte. What is below it does not reach the high bit in eight
steps. -/
def crcEntry (high : ℕ) : ℕ := ((crcUnbit^[8]) (UInt32.ofNat (high * 2 ^ 24))).toNat % 256

/-- The high byte tells the entries of the table apart. -/
theorem crcEntry_crcTable :
    ∀ i ∈ List.range 256, crcEntry ((crcTable (UInt32.ofNat i)).toNat / 2 ^ 24) = i := by
  decide +kernel

theorem crcTable_high_injective {i j : ℕ} (hi : i < 256) (hj : j < 256)
    (h : (crcTable (UInt32.ofNat i)).toNat / 2 ^ 24 = (crcTable (UInt32.ofNat j)).toNat / 2 ^ 24) :
    i = j := by
  rw [← crcEntry_crcTable i (List.mem_range.mpr hi), h, crcEntry_crcTable j (List.mem_range.mpr hj)]

/-- The entry of the table a step uses. -/
def crcIndex (crc : UInt32) (byte : UInt8) : ℕ := crc.toNat % 256 ^^^ byte.toNat

theorem crcIndex_lt (crc : UInt32) (byte : UInt8) : crcIndex crc byte < 256 :=
  Nat.xor_lt_two_pow (Nat.mod_lt _ (by decide)) byte.toNat_lt

theorem toNat_crcUpdate (crc : UInt32) (byte : UInt8) : (crcUpdate crc byte).toNat =
    (crcTable (UInt32.ofNat (crcIndex crc byte))).toNat ^^^ crc.toNat / 256 := by
  have hindex : (crc ^^^ byte.toUInt32) &&& 255 = UInt32.ofNat (crcIndex crc byte) := by
    apply UInt32.toNat_inj.mp
    have hbyte : byte.toNat % 256 = byte.toNat := Nat.mod_eq_of_lt byte.toNat_lt
    have hlt := crcIndex_lt crc byte
    rw [UInt32.toNat_ofNat_of_lt' (hlt.trans (by decide)), UInt32.toNat_and, UInt32.toNat_xor,
      UInt8.toNat_toUInt32]
    show (crc.toNat ^^^ byte.toNat) &&& (2 ^ 8 - 1) = _
    rw [Nat.and_two_pow_sub_one_eq_mod, Nat.xor_mod_two_pow, crcIndex, hbyte]
  rw [crcUpdate, UInt32.toNat_xor, hindex, UInt32.toNat_shiftRight]
  congr 1
  exact Nat.shiftRight_eq_div_pow _ 8

/-- **The step can be undone**: it tells the entry that was used, and the rest of the state. -/
theorem crcUpdate_eq {crc crc' : UInt32} {byte byte' : UInt8}
    (h : crcUpdate crc byte = crcUpdate crc' byte') :
    crcIndex crc byte = crcIndex crc' byte' ∧ crc.toNat / 256 = crc'.toNat / 256 := by
  have heq : (crcUpdate crc byte).toNat = (crcUpdate crc' byte').toNat := by rw [h]
  rw [toNat_crcUpdate, toNat_crcUpdate] at heq
  -- what is shifted down does not reach the high byte
  have hhigh (a c : ℕ) (hc : c < 2 ^ 32) : (a ^^^ c / 256) / 2 ^ 24 = a / 2 ^ 24 := by
    have hzero : c / 256 / 2 ^ 24 = 0 := by
      rw [Nat.div_div_eq_div_mul]
      exact Nat.div_eq_of_lt hc
    rw [Nat.xor_div_two_pow, hzero, Nat.xor_zero]
  have hindex : crcIndex crc byte = crcIndex crc' byte' := by
    apply crcTable_high_injective (crcIndex_lt _ _) (crcIndex_lt _ _)
    rw [← hhigh _ _ crc.toNat_lt, heq, hhigh _ _ crc'.toNat_lt]
  refine ⟨hindex, ?_⟩
  rw [hindex] at heq
  exact Nat.xor_right_injective heq

theorem crcUpdate_injective (byte : UInt8) : Function.Injective fun crc => crcUpdate crc byte := by
  intro crc crc' h
  obtain ⟨hindex, hrest⟩ := crcUpdate_eq h
  have hlow : crc.toNat % 256 = crc'.toNat % 256 := Nat.xor_left_injective hindex
  apply UInt32.toNat_inj.mp
  omega

theorem crcUpdate_byte_injective (crc : UInt32) : Function.Injective (crcUpdate crc) :=
  fun _ _ h => UInt8.toNat_inj.mp (Nat.xor_right_injective (crcUpdate_eq h).1)

/-- **One changed byte changes the checksum.** -/
theorem crc32c_ne_of_replaced {bytes bytes' : Bytes} (h : Replaced bytes bytes') :
    crc32c bytes' ≠ crc32c bytes := by
  intro heq
  apply h.foldl_ne crcUpdate_injective crcUpdate_byte_injective (~~~0)
  exact UInt32.not_inj.mp heq

/-- A checksum that is stored among the bytes it is about, and taken with its field as zero, no
longer agrees. -/
theorem stored_crc32c_ne {bytes bytes' : Bytes} {pos : ℕ} (hpos : pos + 4 ≤ bytes.length)
    (hstored : LittleEndian.decode (Buffer.slice bytes pos 4) =
      (crc32c (bytes.take pos ++ ([0, 0, 0, 0] ++ bytes.drop (pos + 4)))).toNat)
    (h : Replaced bytes bytes') :
    LittleEndian.decode (Buffer.slice bytes' pos 4) ≠
      (crc32c (bytes'.take pos ++ ([0, 0, 0, 0] ++ bytes'.drop (pos + 4)))).toNat := by
  have hsum (l l' : Bytes) (h : Replaced l l') : (crc32c l').toNat ≠ (crc32c l).toNat :=
    fun heq => crc32c_ne_of_replaced h (UInt32.toNat_inj.mp heq)
  have hvalue (l l' : Bytes) (h : Replaced l l') : LittleEndian.decode l' ≠ LittleEndian.decode l :=
    fun heq => h.ne (LittleEndian.decode_injective h.length_eq heq)
  have hsplit : bytes = bytes.take pos ++ (Buffer.slice bytes pos 4 ++ bytes.drop (pos + 4)) := by
    rw [Buffer.slice, ← List.drop_drop, List.take_append_drop, List.take_append_drop]
  have hslice : (Buffer.slice bytes pos 4).length = 4 := by
    rw [Buffer.length_slice]
    omega
  rw [hsplit] at h
  obtain ⟨as, cs, bs, rfl, has, hcs, hne⟩ := h.mismatch hsum hvalue hstored
  rw [List.length_take, min_eq_left (by omega)] at has
  rw [hslice] at hcs
  have hdrop : (as ++ (cs ++ bs)).drop (pos + 4) = bs := by
    rw [← List.append_assoc, List.drop_left' (by rw [List.length_append, has, hcs])]
  rwa [Buffer.slice, hdrop, List.drop_left' has, List.take_left' hcs, List.take_left' has]

end Checksum

/-! ### Pages -/

section Pages

/-- **A damaged slotted page** is refused. -/
theorem SlottedPage.fromBytes_of_replaced {bytes bytes' : Bytes} {page : SlottedPage}
    (hpage : fromBytes bytes = .ok page) (h : Replaced bytes bytes') :
    ∃ e, fromBytes bytes' = .error e := by
  have hok {bytes : Bytes} {page : SlottedPage} (hpage : fromBytes bytes = .ok page) :
      page.bytes = bytes ∧ page.storedChecksum = page.computedChecksum.toNat := by
    unfold fromBytes at hpage
    split at hpage
    · dsimp only at hpage
      repeat' split at hpage
      all_goals cases hpage
      next hchecksum => exact ⟨rfl, not_not.mp hchecksum⟩
    · cases hpage
  cases hresult : fromBytes bytes' with
  | error e => exact ⟨e, rfl⟩
  | ok page' =>
    obtain ⟨rfl, hstored⟩ := hok hpage
    obtain ⟨rfl, hstored'⟩ := hok hresult
    have hsize : 32 + 4 ≤ page.bytes.length := by
      rw [page.size]
      decide
    exact absurd hstored' (stored_crc32c_ne hsize hstored h)

/-- **A damaged index page** is refused, whatever page it is taken for. -/
theorem Index.Node.decode_of_replaced {page page' : PageBytes} {id : ℕ} {node : Node id}
    (hnode : decode page id = .ok node) (h : Replaced page.1 page'.1) (id' : ℕ) :
    ∃ e, decode page' id' = .error e := by
  have hsize (page : PageBytes) : 28 + 4 ≤ page.1.length := by
    rw [page.2]
    decide
  have hzeroed (page : PageBytes) : (page.write 28 [0, 0, 0, 0]).1 =
      page.1.take 28 ++ ([0, 0, 0, 0] ++ page.1.drop (28 + 4)) :=
    Buffer.write_eq (hsize page)
  have hstored : (crc32c (page.write 28 [0, 0, 0, 0]).1).toNat =
      LittleEndian.decode (page.slice 28 4) := by
    rw [decode] at hnode
    split at hnode
    · cases hnode
    · next hheader => exact not_not.mp fun hne => hheader (by simp [hne])
  have hne : (crc32c (page'.write 28 [0, 0, 0, 0]).1).toNat ≠
      LittleEndian.decode (page'.slice 28 4) := by
    rw [hzeroed] at hstored ⊢
    exact (stored_crc32c_ne (hsize page) hstored.symm h).symm
  exact ⟨_, if_pos (by simp [hne])⟩

end Pages

/-! ### Frames -/

namespace Frame

section Frames

variable {f : Frame}

/-- **A damaged header** is refused. -/
theorem headerLength_of_replaced {header' : Bytes} (h : Replaced f.header header') :
    ∃ e, headerLength header' = .error e := by
  have hu32 : LittleEndian.decode (Encoder.u32 (crc32c f.headerFields).toNat) =
      (crc32c f.headerFields).toNat :=
    LittleEndian.decode_encode_of_lt (crc32c f.headerFields).toNat_lt
  have hne : (crc32c (header'.take 28)).toNat ≠ LittleEndian.decode ((header'.drop 28).take 4) := by
    rw [header] at h
    rcases h.of_append with ⟨fields, hfields, rfl⟩ | ⟨crc, hcrc, rfl⟩
    · have hlen : fields.length = 28 := by rw [hfields.length_eq, length_headerFields]
      rw [List.take_left' hlen, List.drop_left' hlen,
        List.take_of_length_le (Encoder.length_u32 _).le, hu32]
      exact fun heq => crc32c_ne_of_replaced hfields (UInt32.toNat_inj.mp heq)
    · have hlen : crc.length = 4 := by rw [hcrc.length_eq, Encoder.length_u32]
      rw [List.take_left' (length_headerFields f), List.drop_left' (length_headerFields f),
        List.take_of_length_le hlen.le, ← hu32]
      exact fun heq => hcrc.ne (LittleEndian.decode_injective hcrc.length_eq heq.symm)
  exact ⟨_, if_pos (Or.inr (Or.inr hne))⟩

/-- **A damaged payload or trailer** is refused. -/
theorem assemble_of_replaced {body : Bytes} (h : Replaced (f.payload ++ trailer) body) :
    ∃ e, assemble f.header (body.take f.payload.length) (body.drop f.payload.length) =
      .error e := by
  obtain ⟨-, -, -, -, -, hcrc, -, -⟩ := header_slices f
  have hu32 : LittleEndian.decode (Encoder.u32 (crc32c f.payload).toNat) =
      (crc32c f.payload).toNat :=
    LittleEndian.decode_encode_of_lt (crc32c f.payload).toNat_lt
  refine ⟨_, if_pos ?_⟩
  rw [hcrc, hu32]
  rcases h.of_append with ⟨payload, hpayload, rfl⟩ | ⟨last, hlast, rfl⟩
  · rw [List.take_left' hpayload.length_eq]
    exact Or.inr fun heq => crc32c_ne_of_replaced hpayload (UInt32.toNat_inj.mp heq)
  · rw [List.drop_left' rfl]
    exact Or.inl hlast.ne

/-- What both readers do with a frame whose header and body are known. -/
theorem readers_of_error {header body before rest : Bytes} {length : ℕ}
    (hheader : header.length = 32) (hbody : body.length = length + 8)
    (herror : (∃ e, headerLength header = .error e) ∨ headerLength header = .ok length ∧
      ∃ e, assemble header (body.take length) (body.drop length) = .error e) :
    (∃ e, readFrom (before ++ (header ++ (body ++ rest))) before.length = .error e) ∧
      ∀ stop, before.length + 40 + length ≤ stop →
        ∃ e, readAt (before ++ (header ++ (body ++ rest))) before.length stop = .error e := by
  have hlen : (before ++ (header ++ (body ++ rest))).length =
      before.length + 40 + length + rest.length := by
    rw [List.length_append, List.length_append, List.length_append, hheader, hbody]
    omega
  have htake (n m : ℕ) (hm : n + m ≤ length + 8) :
      ((before ++ (header ++ (body ++ rest))).drop (before.length + 32 + n)).take m =
        (body.drop n).take m := by
    rw [Nat.add_assoc, ← List.drop_drop, List.drop_left' rfl, ← List.drop_drop,
      List.drop_left' hheader, List.drop_append_of_le_length (by omega),
      List.take_append_of_le_length (by rw [List.length_drop]; omega)]
  have hread : readExactAt
    (before ++ (header ++ (body ++ rest))) before.length 32 = .ok header := by
    rw [readExactAt_of_le (by omega), List.drop_left' rfl, List.take_left' hheader]
  constructor
  · rw [readFrom, if_neg (by omega), hread, ok_bind]
    rcases herror with ⟨e, he⟩ | ⟨hlength, e, he⟩
    · exact ⟨e, by rw [he]; rfl⟩
    · have htrailer : (body.drop length).take 8 = body.drop length :=
        List.take_of_length_le (by rw [List.length_drop]; omega)
      have hpayload := htake 0 length (by omega)
      rw [Nat.add_zero, List.drop_zero] at hpayload
      rw [hlength, ok_bind, if_neg (by omega), readExactAt_of_le (by omega), ok_bind,
        readExactAt_of_le (by omega), ok_bind, hpayload, htake length 8 le_rfl, htrailer, he]
      exact ⟨e, rfl⟩
  · intro stop hstop
    rw [readAt, if_neg (by omega), hread, ok_bind]
    rcases herror with ⟨e, he⟩ | ⟨hlength, e, he⟩
    · exact ⟨e, by rw [he]; rfl⟩
    · have hrest := htake 0 (length + 8) (by omega)
      rw [Nat.add_zero, List.drop_zero, List.take_of_length_le hbody.le] at hrest
      rw [hlength, ok_bind, if_neg (by omega), readExactAt_of_le (by omega), ok_bind, hrest, he]
      exact ⟨e, rfl⟩

/-- **A damaged frame** is an error to both readers, whatever is around it. -/
theorem readers_of_replaced (hf : f.Valid) {bytes : Bytes} (h : Replaced f.bytes bytes)
    (before rest : Bytes) :
    (∃ e, readFrom (before ++ (bytes ++ rest)) before.length = .error e) ∧
      ∀ stop, before.length + f.bytes.length ≤ stop →
        ∃ e, readAt (before ++ (bytes ++ rest)) before.length stop = .error e := by
  have hbody : (f.payload ++ trailer).length = f.payload.length + 8 := by
    rw [List.length_append]
    rfl
  rw [length_bytes, ← Nat.add_assoc]
  rcases h.of_append with ⟨header, hheader, rfl⟩ | ⟨body, hdamaged, rfl⟩
  · rw [List.append_assoc header]
    exact readers_of_error (hheader.length_eq.trans (length_header f)) hbody
      (Or.inl (headerLength_of_replaced hheader))
  · rw [List.append_assoc f.header]
    exact readers_of_error (length_header f) (hdamaged.length_eq.trans hbody)
      (Or.inr ⟨headerLength_header hf, assemble_of_replaced hdamaged⟩)

end Frames

end Frame

/-- **Any single damaged byte is detected.** Of a complete frame, whatever is in front of it and
behind, both readers return an error and not what was changed, nor do they take it for the torn
end of a file; a slotted page and an index page are refused. -/
theorem single_byte_detected :
    (∀ kind lsn payload bytes, kind < 2 ^ 16 → lsn < 2 ^ 64 →
      Frame.encode kind lsn payload = .ok bytes → ∀ bytes', Replaced bytes bytes' →
      ∀ before rest : Bytes,
        (∃ e, Frame.readFrom (before ++ (bytes' ++ rest)) before.length = .error e) ∧
        ∀ stop, before.length + bytes.length ≤ stop →
          ∃ e, Frame.readAt (before ++ (bytes' ++ rest)) before.length stop = .error e) ∧
    (∀ bytes page, SlottedPage.fromBytes bytes = .ok page → ∀ bytes', Replaced bytes bytes' →
      ∃ e, SlottedPage.fromBytes bytes' = .error e) ∧
    ∀ (page : PageBytes) (id : ℕ) (node : Index.Node id), Index.Node.decode page id = .ok node →
      ∀ page' : PageBytes, Replaced page.1 page'.1 →
      ∀ id', ∃ e, Index.Node.decode page' id' = .error e := by
  refine ⟨?_, ?_, ?_⟩
  · intro kind lsn payload bytes hkind hlsn hencode bytes' hreplaced before rest
    rw [Frame.encode] at hencode
    split at hencode
    · cases hencode
    · next hlength =>
      cases hencode
      exact Frame.readers_of_replaced ⟨hkind, hlsn, not_lt.mp hlength⟩ hreplaced before rest
  · exact fun bytes page hpage bytes' hreplaced => SlottedPage.fromBytes_of_replaced hpage hreplaced
  · exact fun page id node hnode page' hreplaced => Index.Node.decode_of_replaced hnode hreplaced

/-- A byte in the trailer of a frame, and one in the free space of a page. -/
theorem single_byte_detected_twice :
    (∃ e, Frame.readFrom ([] ++ ((Frame.mk 2 7 [1, 2, 3]).bytes.set 35 0 ++ [])) 0 = .error e) ∧
    ∃ byte, byte ≠ 0 ∧ ∃ e, SlottedPage.fromBytes ((SlottedPage.new 5).bytes.set 100 byte) =
      .error e := by
  obtain ⟨hframe, hpage, -⟩ := single_byte_detected
  constructor
  · have hbytes : 35 < (Frame.mk 2 7 [1, 2, 3]).bytes.length := by simp
    have hold : (0 : UInt8) ≠ (Frame.mk 2 7 [1, 2, 3]).bytes[35] := by
      simp [Frame.bytes, Frame.trailer]
    exact (hframe 2 7 [1, 2, 3] _ (by decide) (by decide) rfl _ ⟨35, hbytes, 0, hold, rfl⟩ [] []).1
  · have hsize : 100 < (SlottedPage.new 5).bytes.length := by
      rw [(SlottedPage.new 5).size]
      decide
    have hnew := SlottedPage.fromBytes_eq_ok.mpr ⟨rfl, [], (SlottedPage.holds_new 5).1⟩
    -- one of two bytes is another one than the page has there
    by_cases hold : (1 : UInt8) = (SlottedPage.new 5).bytes[100]
    · exact ⟨2, by decide, hpage _ _ hnew _ ⟨100, hsize, 2, by rw [← hold]; decide, rfl⟩⟩
    · exact ⟨1, by decide, hpage _ _ hnew _ ⟨100, hsize, 1, hold, rfl⟩⟩

end EveDB
