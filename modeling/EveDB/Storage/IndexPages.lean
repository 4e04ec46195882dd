import EveDB.Storage.IndexFile

/-!
# The pages a writer writes are the nodes a reader reads

A page that was put together by an `IndexWriter` passes `Node.decode`, and the node has the
entries the page was made of: `readsAs_leafPage`, `readsAs_branchPage` and
`readsAs_metaPage`. What has to hold of the entries is what the writer sees to: they fit the
page, their keys ascend, their numbers fit eight bytes, and a leaf is chained forward while a
branch points back.
-/

namespace EveDB

/-! ### Reading behind a write -/

namespace PageBytes

variable {page : PageBytes} {pos off n : ℕ}

theorem slice_write {data : Bytes} (h : pos + data.length ≤ 8192) :
    (page.write pos data).slice pos data.length = data :=
  Buffer.slice_write (by rw [page.2]; exact h)

theorem slice_write_of_apart {data : Bytes} (h : pos + data.length ≤ 8192)
    (hapart : off + n ≤ pos ∨ pos + data.length ≤ off) :
    (page.write pos data).slice off n = page.slice off n :=
  Buffer.slice_write_of_apart (by rw [page.2]; exact h) hapart

theorem slice_put_of_apart {v : ℕ} (h : pos + 8 ≤ 8192)
    (hapart : off + n ≤ pos ∨ pos + 8 ≤ off) : (page.put pos v).slice off n = page.slice off n :=
  slice_write_of_apart (by rwa [Encoder.length_u64]) (by rwa [Encoder.length_u64])

theorem get_put {v : ℕ} (h : pos + 8 ≤ 8192) (hv : v < 2 ^ 64) : (page.put pos v).get pos = v := by
  have hlen : (Encoder.u64 v).length = 8 := Encoder.length_u64 v
  have hslice : (page.put pos v).slice pos 8 = Encoder.u64 v := by
    rw [put, ← hlen, slice_write (by rwa [hlen])]
  rw [get, hslice]
  exact LittleEndian.decode_encode_of_lt hv

theorem get_put_of_apart {v : ℕ} (h : pos + 8 ≤ 8192) (hapart : off + 8 ≤ pos ∨ pos + 8 ≤ off) :
    (page.put pos v).get off = page.get off := by
  rw [get, slice_put_of_apart h hapart, get]

theorem slice_writeU16_of_apart {v : ℕ} (h : pos + 2 ≤ 8192)
    (hapart : off + n ≤ pos ∨ pos + 2 ≤ off) :
    (page.write pos (Encoder.u16 v)).slice off n = page.slice off n :=
  slice_write_of_apart (by rwa [Encoder.length_u16]) (by rwa [Encoder.length_u16])

theorem get_writeU16_of_apart {v : ℕ} (h : pos + 2 ≤ 8192)
    (hapart : off + 8 ≤ pos ∨ pos + 2 ≤ off) :
    (page.write pos (Encoder.u16 v)).get off = page.get off := by
  rw [get, slice_writeU16_of_apart h hapart, get]

theorem slice_writeU16 {v : ℕ} (h : pos + 2 ≤ 8192) :
    (page.write pos (Encoder.u16 v)).slice pos 2 = Encoder.u16 v := by
  have hlen : (Encoder.u16 v).length = 2 := Encoder.length_u16 v
  have hslice : (page.write pos (Encoder.u16 v)).slice pos (Encoder.u16 v).length =
      Encoder.u16 v := slice_write (by rwa [hlen])
  rwa [hlen] at hslice

end PageBytes

namespace Index

open PageBytes

/-! ### Headers -/

/-- The header of a page, with the checksum still to be filled in. -/
structure HasHeader (bytes : PageBytes) (kind id lsn count next : ℕ) : Prop where
  magic : bytes.slice 0 4 = Index.magic
  version : bytes.slice 4 2 = Encoder.u16 1
  kind : kindOf bytes = kind
  id : bytes.get 8 = id
  lsn : bytes.get 16 = lsn
  count : countOf bytes = count
  reserved : bytes.slice 26 2 = [0, 0]
  checksum : bytes.slice 28 4 = [0, 0, 0, 0]
  next : nextOf bytes = next

section Header

variable {bytes : PageBytes} {kind id lsn count next : ℕ}

/-- Pages that agree on their first forty bytes have the same header. -/
theorem HasHeader.congr {bytes' : PageBytes} (h : HasHeader bytes kind id lsn count next)
    (hsame : ∀ off n, off + n ≤ 40 → bytes'.slice off n = bytes.slice off n) :
    HasHeader bytes' kind id lsn count next := by
  refine ⟨?_, ?_, ?_, ?_, ?_, ?_, ?_, ?_, ?_⟩
  · rw [hsame 0 4 (by decide), h.magic]
  · rw [hsame 4 2 (by decide), h.version]
  · rw [kindOf, readU16, hsame 6 2 (by decide), ← h.kind, kindOf, readU16]
  · rw [PageBytes.get, hsame 8 8 (by decide), ← h.id, PageBytes.get]
  · rw [PageBytes.get, hsame 16 8 (by decide), ← h.lsn, PageBytes.get]
  · rw [countOf, readU16, hsame 24 2 (by decide), ← h.count, countOf, readU16]
  · rw [hsame 26 2 (by decide), h.reserved]
  · rw [hsame 28 4 (by decide), h.checksum]
  · rw [nextOf, PageBytes.get, hsame 32 8 (by decide), ← h.next, nextOf, PageBytes.get]

theorem hasHeader_page (hkind : kind < 2 ^ 16) (hid : id < 2 ^ 64) (hlsn : lsn < 2 ^ 64)
    (hcount : count < 2 ^ 16) (hnext : next < 2 ^ 64) :
    HasHeader (page kind id lsn count next) kind id lsn count next := by
  have hmagic : Index.magic.length = 4 := rfl
  have hzero (off n : ℕ) (hn : off + n ≤ 8192) :
      PageBytes.slice ⟨List.replicate pageSize 0, List.length_replicate⟩ off n =
        List.replicate n 0 := by
    rw [slice, Buffer.slice, List.drop_replicate, List.take_replicate, pageSize,
      min_eq_left (by omega)]
  refine ⟨?_, ?_, ?_, ?_, ?_, ?_, ?_, ?_, ?_⟩
  · simp (disch := omega) only [page, slice_put_of_apart, slice_writeU16_of_apart]
    rw [← hmagic, slice_write (by decide)]
  · simp (disch := omega) only [page, slice_put_of_apart, slice_writeU16_of_apart, slice_writeU16]
  · simp (disch := omega) only [kindOf, readU16, page, slice_put_of_apart,
      slice_writeU16_of_apart, slice_writeU16]
    exact LittleEndian.decode_encode_of_lt hkind
  · simp (disch := omega) only [page, get_put_of_apart, get_writeU16_of_apart, get_put]
  · simp (disch := omega) only [page, get_put_of_apart, get_writeU16_of_apart, get_put]
  · simp (disch := omega) only [countOf, readU16, page, slice_put_of_apart, slice_writeU16]
    exact LittleEndian.decode_encode_of_lt hcount
  · simp (disch := omega) only [page, slice_put_of_apart, slice_writeU16_of_apart,
      slice_write_of_apart, hzero]
    rfl
  · simp (disch := omega) only [page, slice_put_of_apart, slice_writeU16_of_apart,
      slice_write_of_apart, hzero]
    rfl
  · exact get_put (by decide) hnext

/-- **A page with its checksum** decodes as the page without it. -/
theorem decode_checksummed (h : HasHeader bytes kind id lsn count next) :
    Node.decode (checksummed bytes) id = Node.validate bytes id := by
  have hlen (v : ℕ) : (Encoder.u32 v).length = 4 := Encoder.length_u32 v
  have hstored : (checksummed bytes).slice 28 4 = Encoder.u32 (crc32c bytes.1).toNat := by
    have hslice : (checksummed bytes).slice 28 (Encoder.u32 (crc32c bytes.1).toNat).length =
        Encoder.u32 (crc32c bytes.1).toNat := slice_write (by rw [hlen]; decide)
    rwa [hlen] at hslice
  have hexpected : LittleEndian.decode (Encoder.u32 (crc32c bytes.1).toNat) =
      (crc32c bytes.1).toNat :=
    LittleEndian.decode_encode_of_lt (crc32c bytes.1).toNat_lt
  have hzeroed : (checksummed bytes).write 28 [0, 0, 0, 0] = bytes := by
    apply Subtype.ext
    have hsize := bytes.2
    have hchecksum : (bytes.1.drop 28).take 4 = [0, 0, 0, 0] := h.checksum
    have hle : 28 + (Encoder.u32 (crc32c bytes.1).toNat).length ≤ bytes.1.length := by
      rw [hlen, hsize]
      decide
    show Buffer.write (Buffer.write bytes.1 28 (Encoder.u32 (crc32c bytes.1).toNat)) 28 [0, 0, 0, 0]
      = bytes.1
    rw [Buffer.write_eq (by rw [Buffer.length_write, hsize]; decide),
      Buffer.take_write le_rfl hle, Buffer.drop_write (by rw [hlen]; decide) hle, ← hchecksum]
    conv_rhs => rw [← List.take_append_drop 28 bytes.1, ← List.take_append_drop 4 (bytes.1.drop 28)]
    rw [List.drop_drop, List.length_take, List.length_drop, hsize]
    rfl
  rw [Node.decode, hstored, hexpected, hzeroed, if_neg]
  simp [h.magic, h.version, h.id, h.reserved]

end Header

/-! ### Entries -/

/-- The numbers of an entry fit eight bytes each. -/
def Fits (pair : ℕ × ℕ) : Prop := pair.1 < 2 ^ 64 ∧ pair.2 < 2 ^ 64

section Entries

/-- What is in front of the entries stays. -/
theorem slice_putEntries {entries : List (Key × IndexValue)} {bytes : PageBytes} {i off n : ℕ}
    (hsize : 40 + (i + entries.length) * 32 ≤ 8192) (hoff : off + n ≤ 40 + i * 32) :
    (putEntries i entries bytes).slice off n = bytes.slice off n := by
  induction entries generalizing i bytes with
  | nil => rfl
  | cons entry entries ih =>
    rw [List.length_cons] at hsize
    rw [putEntries, ih (by omega) (by omega)]
    simp only [header, leafWidth]
    simp (disch := omega) only [slice_put_of_apart]

theorem slice_putChildren {children : List (Key × ℕ)} {bytes : PageBytes} {i off n : ℕ}
    (hsize : 40 + (i + children.length) * 24 ≤ 8192) (hoff : off + n ≤ 40 + i * 24) :
    (putChildren i children bytes).slice off n = bytes.slice off n := by
  induction children generalizing i bytes with
  | nil => rfl
  | cons child children ih =>
    rw [List.length_cons] at hsize
    rw [putChildren, ih (by omega) (by omega)]
    simp only [header, branchWidth]
    simp (disch := omega) only [slice_put_of_apart]

/-- **An entry of a leaf** is where it was put. -/
theorem get_putEntries {entries : List (Key × IndexValue)} {bytes : PageBytes} {i j : ℕ}
    (hsize : 40 + (i + entries.length) * 32 ≤ 8192)
    (hfits : ∀ e ∈ entries, Fits e.1 ∧ Fits e.2) (hj : j < entries.length) :
    let page := putEntries i entries bytes
    page.get (40 + (i + j) * 32) = entries[j].1.1 ∧
    page.get (40 + (i + j) * 32 + 8) = entries[j].1.2 ∧
    page.get (40 + (i + j) * 32 + 16) = entries[j].2.1 ∧
    page.get (40 + (i + j) * 32 + 24) = entries[j].2.2 := by
  induction entries generalizing i j bytes with
  | nil => cases hj
  | cons entry entries ih =>
    obtain ⟨⟨⟨hk, hk'⟩, hv, hv'⟩, hfits⟩ := List.forall_mem_cons.mp hfits
    rw [List.length_cons] at hsize hj
    cases j with
    | zero =>
      have hget (off : ℕ) (b : PageBytes) (hoff : off + 8 ≤ 40 + (i + 1) * 32) :
          (putEntries (i + 1) entries b).get off = b.get off := by
        rw [PageBytes.get, slice_putEntries (by omega) hoff, PageBytes.get]
      dsimp only
      rw [putEntries, hget _ _ (by omega), hget _ _ (by omega), hget _ _ (by omega),
        hget _ _ (by omega)]
      simp only [header, leafWidth, List.getElem_cons_zero, Nat.add_zero]
      refine ⟨?_, ?_, ?_, ?_⟩
      · simp (disch := omega) only [get_put_of_apart, get_put]
      · simp (disch := omega) only [get_put_of_apart, get_put]
      · simp (disch := omega) only [get_put_of_apart, get_put]
      · simp (disch := omega) only [get_put]
    | succ j =>
      rw [putEntries, List.getElem_cons_succ, Nat.add_comm j 1, ← Nat.add_assoc]
      exact ih (by omega) hfits (by omega)

/-- **An entry of a branch** is where it was put. -/
theorem get_putChildren {children : List (Key × ℕ)} {bytes : PageBytes} {i j : ℕ}
    (hsize : 40 + (i + children.length) * 24 ≤ 8192)
    (hfits : ∀ c ∈ children, Fits c.1 ∧ c.2 < 2 ^ 64) (hj : j < children.length) :
    let page := putChildren i children bytes
    page.get (40 + (i + j) * 24) = children[j].1.1 ∧
    page.get (40 + (i + j) * 24 + 8) = children[j].1.2 ∧
    page.get (40 + (i + j) * 24 + 16) = children[j].2 := by
  induction children generalizing i j bytes with
  | nil => cases hj
  | cons child children ih =>
    obtain ⟨⟨⟨hk, hk'⟩, hid⟩, hfits⟩ := List.forall_mem_cons.mp hfits
    rw [List.length_cons] at hsize hj
    cases j with
    | zero =>
      have hget (off : ℕ) (b : PageBytes) (hoff : off + 8 ≤ 40 + (i + 1) * 24) :
          (putChildren (i + 1) children b).get off = b.get off := by
        rw [PageBytes.get, slice_putChildren (by omega) hoff, PageBytes.get]
      dsimp only
      rw [putChildren, hget _ _ (by omega), hget _ _ (by omega), hget _ _ (by omega)]
      simp only [header, branchWidth, List.getElem_cons_zero, Nat.add_zero]
      refine ⟨?_, ?_, ?_⟩
      · simp (disch := omega) only [get_put_of_apart, get_put]
      · simp (disch := omega) only [get_put_of_apart, get_put]
      · simp (disch := omega) only [get_put]
    | succ j =>
      rw [putChildren, List.getElem_cons_succ, Nat.add_comm j 1, ← Nat.add_assoc]
      exact ih (by omega) hfits (by omega)

end Entries

/-! ### Nodes -/

/-- Entries in order pass the check. -/
theorem checkEntries_eq_ok {bytes : PageBytes} {id n i : ℕ} {previous : Option Key}
    (hprevious : 0 < n → ∀ p ∈ previous, toLex p < toLex (keyOf bytes i))
    (hascending : ∀ j, i ≤ j → j + 1 < i + n →
      toLex (keyOf bytes j) < toLex (keyOf bytes (j + 1)))
    (hchildren : kindOf bytes = 2 → ∀ j, i ≤ j → j < i + n →
      0 < childOf bytes j ∧ childOf bytes j < id) :
    checkEntries bytes id n i previous = .ok () := by
  induction n generalizing i previous with
  | zero => rfl
  | succ n ih =>
    have hkey : ¬ (previous.any fun p => toLex (keyOf bytes i) ≤ toLex p) := by
      rw [Option.any_eq_true]
      rintro ⟨p, hp, hle⟩
      exact (hprevious (Nat.succ_pos n) p hp).not_ge (of_decide_eq_true hle)
    have hchild : ¬ (kindOf bytes = 2 ∧ (childOf bytes i = 0 ∨ id ≤ childOf bytes i)) := by
      rintro ⟨hkind, hbad⟩
      have := hchildren hkind i le_rfl (by omega)
      omega
    rw [checkEntries, if_neg hkey, if_neg hchild]
    refine ih (fun hn p hp => ?_) (fun j hle hlt => hascending j (by omega) (by omega))
      (fun hkind j hle hlt => hchildren hkind j (by omega) (by omega))
    cases hp
    exact hascending i le_rfl (by omega)

/-- A decoded page is the page that was written. -/
structure ReadsAs {id : ℕ} (node : Node id) (kind lsn next : ℕ) : Prop where
  kind : node.kind = kind
  lsn : node.lsn = lsn
  next : node.next = next

theorem readsAs_of_hasHeader {bytes : PageBytes} {kind id lsn count next : ℕ}
    (h : HasHeader bytes kind id lsn count next) {node : Node id} (hnode : node.bytes = bytes) :
    ReadsAs node kind lsn next ∧ node.count = count := by
  refine ⟨⟨?_, ?_, ?_⟩, ?_⟩
  · rw [Node.kind, hnode, h.kind]
  · rw [Node.lsn, hnode, h.lsn]
  · rw [Node.next, hnode, h.next]
  · rw [Node.count, hnode, h.count]

theorem validate_eq_ok {bytes : PageBytes} {kind id lsn count next : ℕ}
    (h : HasHeader bytes kind id lsn count next) (hkind : kind = 1 ∨ kind = 2)
    (hcount : 0 < count) (hcapacity : count ≤ (pageSize - header) / widthOf bytes)
    (hentries : checkEntries bytes id count 0 none = .ok ())
    (hnext : kind = 1 → next = 0 ∨ id < next) :
    ∃ node, Node.validate bytes id = .ok node ∧ node.bytes = bytes := by
  have hmeta : ¬
      (kindOf bytes = 0 ∧ countOf bytes = 0 ∧ (nextOf bytes = 0 ∨ id < nextOf bytes)) := by
    rw [h.kind]
    rintro ⟨rfl, -⟩
    exact absurd hkind (by decide)
  have hchain : ¬ (kindOf bytes = 1 ∧ nextOf bytes ≠ 0 ∧ nextOf bytes ≤ id) := by
    rw [h.kind, h.next]
    rintro ⟨hleaf, hne, hle⟩
    rcases hnext hleaf with hzero | hlt
    · exact hne hzero
    · exact hle.not_gt hlt
  have hn := h.count
  rw [Node.validate]
  rw [dif_neg hmeta, if_neg (by rw [h.kind]; exact not_not.mpr hkind), dif_neg (by omega)]
  split
  · next e heq =>
    rw [hn, hentries] at heq
    cases heq
  · exact ⟨_, if_neg hchain, rfl⟩

section Pages

variable {id lsn next : ℕ}

/-- **A leaf reads back as it was written.** -/
theorem decode_leafPage {entries : List (Key × IndexValue)} (hid : id < 2 ^ 64)
    (hlsn : lsn < 2 ^ 64) (hnext : next < 2 ^ 64) (hne : entries ≠ [])
    (hlen : entries.length ≤ leafCapacity) (hfits : ∀ e ∈ entries, Fits e.1 ∧ Fits e.2)
    (hascending : SortedList.Ascending (fun e => toLex e.1) entries)
    (hchain : next = 0 ∨ id < next) :
    ∃ node, Node.decode (checksummed (leafPage id lsn next entries)) id = .ok node ∧
      ReadsAs node 1 lsn next ∧ node.entries = entries := by
  have hlen' : entries.length ≤ 254 := hlen
  have hsize : 40 + (0 + entries.length) * 32 ≤ 8192 := by omega
  have hheader : HasHeader (leafPage id lsn next entries) 1 id lsn entries.length next :=
    (hasHeader_page (by decide) hid hlsn (by omega) hnext).congr fun off n hoff =>
      slice_putEntries hsize (by omega)
  have hwidth : widthOf (leafPage id lsn next entries) = 32 := if_pos hheader.kind
  have hentry {j : ℕ} (hj : j < entries.length) :
      keyOf (leafPage id lsn next entries) j = entries[j].1 ∧
        ((leafPage id lsn next entries).get (header + j * leafWidth + 16),
          (leafPage id lsn next entries).get (header + j * leafWidth + 24)) = entries[j].2 := by
    have hget := @get_putEntries entries (page 1 id lsn entries.length next) _ _ hsize hfits hj
    rw [Nat.zero_add] at hget
    rw [keyOf, hwidth]
    exact ⟨Prod.ext hget.1 hget.2.1, Prod.ext hget.2.2.1 hget.2.2.2⟩
  have hcheck : checkEntries (leafPage id lsn next entries) id entries.length 0 none = .ok () := by
    refine checkEntries_eq_ok (by rintro - p ⟨⟩) (fun j _ hj => ?_) fun hkind => ?_
    · rw [(hentry (by omega)).1, (hentry (by omega)).1]
      exact List.pairwise_iff_getElem.mp hascending j (j + 1) _ _ (Nat.lt_succ_self j)
    · rw [hheader.kind] at hkind
      cases hkind
  obtain ⟨node, hvalidate, hbytes⟩ := validate_eq_ok hheader (Or.inl rfl)
    (List.length_pos_iff.mpr hne) (by rw [hwidth]; exact hlen') hcheck fun _ => hchain
  obtain ⟨hreads, hcount⟩ := readsAs_of_hasHeader hheader hbytes
  refine ⟨node, by rw [decode_checksummed hheader, hvalidate], hreads, ?_⟩
  rw [Node.entries, hcount]
  refine List.ext_getElem (by simp) fun j hj hj' => ?_
  rw [List.getElem_map, List.getElem_range, Node.key, Node.value, hbytes]
  exact Prod.ext (hentry hj').1 (hentry hj').2

/-- **A branch reads back as it was written.** -/
theorem decode_branchPage {children : List (Key × ℕ)} (hid : id < 2 ^ 64)
    (hlsn : lsn < 2 ^ 64) (hne : children ≠ []) (hlen : children.length ≤ branchCapacity)
    (hfits : ∀ c ∈ children, Fits c.1 ∧ 0 < c.2 ∧ c.2 < id)
    (hascending : SortedList.Ascending (fun c => toLex c.1) children) :
    ∃ node, Node.decode (checksummed (branchPage id lsn children)) id = .ok node ∧
      ReadsAs node 2 lsn 0 ∧ node.children = children := by
  have hlen' : children.length ≤ 339 := hlen
  have hsize : 40 + (0 + children.length) * 24 ≤ 8192 := by omega
  have hheader : HasHeader (branchPage id lsn children) 2 id lsn children.length 0 :=
    (hasHeader_page (by decide) hid hlsn (by omega) (by decide)).congr fun off n hoff =>
      slice_putChildren hsize (by omega)
  have hwidth : widthOf (branchPage id lsn children) = 24 :=
    if_neg (by rw [hheader.kind]; decide)
  have hchild {j : ℕ} (hj : j < children.length) :
      keyOf (branchPage id lsn children) j = children[j].1 ∧
        childOf (branchPage id lsn children) j = children[j].2 := by
    have hget := @get_putChildren children (page 2 id lsn children.length 0) _ _ hsize
      (fun c hc => ⟨(hfits c hc).1, (hfits c hc).2.2.trans hid⟩) hj
    rw [Nat.zero_add] at hget
    rw [keyOf, hwidth]
    exact ⟨Prod.ext hget.1 hget.2.1, hget.2.2⟩
  have hcheck : checkEntries (branchPage id lsn children) id children.length 0 none = .ok () := by
    refine checkEntries_eq_ok (by rintro - p ⟨⟩) (fun j _ hj => ?_) fun _ j _ hj => ?_
    · rw [(hchild (by omega)).1, (hchild (by omega)).1]
      exact List.pairwise_iff_getElem.mp hascending j (j + 1) _ _ (Nat.lt_succ_self j)
    · rw [Nat.zero_add] at hj
      rw [(hchild hj).2]
      exact (hfits _ (List.getElem_mem hj)).2
  obtain ⟨node, hvalidate, hbytes⟩ := validate_eq_ok hheader (Or.inr rfl)
    (List.length_pos_iff.mpr hne) (by rw [hwidth]; exact hlen') hcheck (by rintro ⟨⟩)
  obtain ⟨hreads, hcount⟩ := readsAs_of_hasHeader hheader hbytes
  refine ⟨node, by rw [decode_checksummed hheader, hvalidate], hreads, ?_⟩
  rw [Node.children, hcount]
  refine List.ext_getElem (by simp) fun j hj hj' => ?_
  rw [List.getElem_map, List.getElem_range, Node.key, Node.child, hbytes]
  exact Prod.ext (hchild hj').1 (hchild hj').2

/-- **A metadata page reads back as it was written.** -/
theorem decode_metaPage {root count : ℕ} (hid : id < 2 ^ 64) (hlsn : lsn < 2 ^ 64)
    (hroot : root < 2 ^ 64) (hbase : root = 0 ∨ id < root) :
    ∃ node, Node.decode (checksummed (metaPage id lsn root count)) id = .ok node ∧
      ReadsAs node 0 lsn root := by
  have hheader : HasHeader (metaPage id lsn root count) 0 id lsn 0 root :=
    (hasHeader_page (by decide) hid hlsn (by decide) hroot).congr fun off n hoff =>
      slice_put_of_apart (by decide) (Or.inl hoff)
  have hmeta : kindOf (metaPage id lsn root count) = 0 ∧ countOf (metaPage id lsn root count) = 0 ∧
      (nextOf (metaPage id lsn root count) = 0 ∨ id < nextOf (metaPage id lsn root count)) := by
    rw [hheader.kind, hheader.count, hheader.next]
    exact ⟨rfl, rfl, hbase⟩
  rw [decode_checksummed hheader, Node.validate, dif_pos hmeta]
  exact ⟨_, rfl, (readsAs_of_hasHeader hheader rfl).1⟩

end Pages

end Index

end EveDB
