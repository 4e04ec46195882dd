import EveDB.Error
import EveDB.Checksum
import EveDB.Library.LittleEndian
import Mathlib.Algebra.Order.BigOperators.Group.List
import Mathlib.Algebra.Group.Action.Defs

/-!
# The record codec

The little-endian encoder and the bounds-checked decoder of `codec.rs`. An encoder
is the byte string it appends; a decoder runs on the bytes that are left.

A decoder *reads* a value off a byte string (`Reads`) when it consumes exactly
that string and leaves whatever follows. Reading composes (`Reads.bind`), so the
round trip of a record is read off the round trips of its fields; the one decoder
that looks ahead is `count`, which rejects an item count the remaining bytes
cannot hold, and is dealt with in `Reads.counted`.
-/

namespace EveDB

/-- The largest encoded record. -/
def maxRecord : ℕ := 16 * 1024 * 1024

/-- The largest frame payload. -/
def maxFrame : ℕ := 64 * 1024 * 1024

/-! ### Encoding -/

namespace Encoder

/-- One byte. -/
def u8 (v : ℕ) : Bytes := LittleEndian.encode 1 v

/-- Two bytes. -/
def u16 (v : ℕ) : Bytes := LittleEndian.encode 2 v

/-- Four bytes. -/
def u32 (v : ℕ) : Bytes := LittleEndian.encode 4 v

/-- Eight bytes. -/
def u64 (v : ℕ) : Bytes := LittleEndian.encode 8 v

/-- A byte string behind its length. -/
def bytes (v : Bytes) : Bytes := u64 v.length ++ v

/-- The UTF-8 bytes of a text behind their number. -/
def string (v : String) : Bytes := bytes v.toUTF8.data.toList

/-- Items one behind the other, behind their number. -/
def list {α : Type} (item : α → Bytes) (items : List α) : Bytes :=
  u64 items.length ++ items.flatMap item

/-- A flag, as one byte. -/
def bool (v : Bool) : Bytes := u8 v.toNat

@[simp] theorem length_u8 (v : ℕ) : (u8 v).length = 1 := LittleEndian.length_encode 1 v

@[simp] theorem length_u16 (v : ℕ) : (u16 v).length = 2 := LittleEndian.length_encode 2 v

@[simp] theorem length_u32 (v : ℕ) : (u32 v).length = 4 := LittleEndian.length_encode 4 v

@[simp] theorem length_u64 (v : ℕ) : (u64 v).length = 8 := LittleEndian.length_encode 8 v

@[simp] theorem length_bool (v : Bool) : (bool v).length = 1 := length_u8 _

@[simp] theorem length_bytes (v : Bytes) : (bytes v).length = 8 + v.length := by
  simp [bytes]

/-- A list of items takes at least as many bytes as the shortest items would. -/
theorem length_mul_le {α : Type} {item : α → Bytes} {items : List α} {m : ℕ}
    (h : ∀ a ∈ items, m ≤ (item a).length) : items.length * m ≤ (items.flatMap item).length := by
  have := List.card_nsmul_le_sum (items.map fun a => (item a).length) m (by simpa using h)
  rwa [List.length_map, smul_eq_mul, ← List.length_flatMap] at this

/-- An item is no longer than the list it is in. -/
theorem length_item_le {α : Type} (item : α → Bytes) {items : List α} {a : α} (h : a ∈ items) :
    (item a).length ≤ (list item items).length := by
  obtain ⟨before, after, rfl⟩ := List.append_of_mem h
  simp only [list, List.flatMap_append, List.flatMap_cons, List.length_append]
  omega

@[simp] theorem length_string (v : String) : (string v).length = 8 + v.utf8ByteSize := by
  rw [string, length_bytes, Array.length_toList, ByteArray.size_data]
  rfl

end Encoder

/-! ### Decoding -/

/-- A decoder consumes bytes and may find them damaged. -/
abbrev Decoder (α : Type) := StateT Bytes (Except Error) α

namespace Decoder

/-- Gives up on a damaged record. -/
def fail {α : Type} (message : String) : Decoder α := fun _ => corrupt message

/-- The number of bytes left. -/
def remaining : Decoder ℕ := fun data => .ok (data.length, data)

/-- The next `count` bytes. -/
def take (count : ℕ) : Decoder Bytes := fun data =>
  if count ≤ data.length then .ok (data.take count, data.drop count)
  else corrupt "truncated record"

/-- One byte. -/
def u8 : Decoder ℕ := LittleEndian.decode <$> take 1

/-- Four bytes. -/
def u32 : Decoder ℕ := LittleEndian.decode <$> take 4

/-- Eight bytes. -/
def u64 : Decoder ℕ := LittleEndian.decode <$> take 8

/-- A number of items of at least `minimumBytes` bytes each, checked against the
bytes that are left. -/
def count (minimumBytes : ℕ) : Decoder ℕ := do
  let n ← u64
  if n > (← remaining) / max minimumBytes 1 then
    fail "invalid item count"
  return n

/-- A byte string behind its length. -/
def bytes : Decoder Bytes := do
  let n ← count 1
  take n

/-- A text behind its length. -/
def string : Decoder String := do
  let data ← bytes
  match String.fromUTF8? ⟨data.toArray⟩ with
  | some s => return s
  | none => fail "invalid UTF-8"

/-- A flag; any byte but zero and one is damage. -/
def bool (message : String) : Decoder Bool := do
  match ← u8 with
  | 0 => return false
  | 1 => return true
  | _ => fail message

/-- Succeeds when nothing is left. -/
def finish : Decoder Unit := fun data =>
  if data.length ≠ 0 then corrupt "unexpected trailing bytes" else .ok ((), data)

/-- Runs `body` on the accumulator `n` times. -/
def times {σ : Type} (body : σ → Decoder σ) : ℕ → σ → Decoder σ
  | 0, s => return s
  | n + 1, s => do
    let s ← body s
    times body n s

/-- Runs `body` as many times as the number in front says. -/
def counted {σ : Type} (minimumBytes : ℕ) (body : σ → Decoder σ) (s : σ) : Decoder σ := do
  let n ← count minimumBytes
  times body n s

/-- Decodes a whole record. -/
def decode {α : Type} (d : Decoder α) (data : Bytes) : Result α :=
  Prod.fst <$> (do let a ← d; finish; return a : Decoder α).run data

end Decoder

/-! ### Reading back -/

/-- **The decoder reads `a` off `data`**: it consumes exactly `data`, whatever follows. -/
def Reads {α : Type} (d : Decoder α) (data : Bytes) (a : α) : Prop :=
  ∀ rest, d.run (data ++ rest) = .ok (a, rest)

namespace Reads

variable {α β σ : Type}

theorem pure (a : α) : Reads (Pure.pure a) [] a := fun _ => rfl

/-- Reading composes. -/
theorem bind {d : Decoder α} {f : α → Decoder β} {data data' : Bytes} {a : α} {b : β}
    (hd : Reads d data a) (hf : Reads (f a) data' b) : Reads (d >>= f) (data ++ data') b := by
  intro rest
  rw [StateT.run_bind, List.append_assoc, hd, ok_bind, hf]

/-- Reading composes, also when nothing is read last. -/
theorem bind_last {d : Decoder α} {f : α → Decoder β} {data : Bytes} {a : α} {b : β}
    (hd : Reads d data a) (hf : Reads (f a) [] b) : Reads (d >>= f) data b := by
  simpa using hd.bind hf

/-- Reading behind a check that passed. -/
theorem ite_neg {c : Prop} [Decidable c] {t e : Decoder α} {data : Bytes} {a : α} (hc : ¬ c)
    (he : Reads e data a) : Reads (if c then t else e) data a := by
  rwa [if_neg hc]

/-- Reading through a pure last step. -/
theorem map {d : Decoder α} {f : α → β} {data : Bytes} {a : α} (hd : Reads d data a) :
    Reads (f <$> d) data (f a) := by
  intro rest
  rw [StateT.run_map, hd]
  rfl

theorem take (data : Bytes) : Reads (Decoder.take data.length) data data := by
  intro rest
  simp [Decoder.take, StateT.run]

/-- A number that fits its width is read back. -/
theorem u8 {v : ℕ} (h : v < 2 ^ 8) : Reads Decoder.u8 (Encoder.u8 v) v := by
  have := (take (Encoder.u8 v)).map (f := LittleEndian.decode)
  rwa [Encoder.length_u8, Encoder.u8, LittleEndian.decode_encode_of_lt (by omega)] at this

theorem u32 {v : ℕ} (h : v < 2 ^ 32) : Reads Decoder.u32 (Encoder.u32 v) v := by
  have := (take (Encoder.u32 v)).map (f := LittleEndian.decode)
  rwa [Encoder.length_u32, Encoder.u32, LittleEndian.decode_encode_of_lt (by omega)] at this

theorem u64 {v : ℕ} (h : v < 2 ^ 64) : Reads Decoder.u64 (Encoder.u64 v) v := by
  have := (take (Encoder.u64 v)).map (f := LittleEndian.decode)
  rwa [Encoder.length_u64, Encoder.u64, LittleEndian.decode_encode_of_lt (by omega)] at this

theorem bool (message : String) (v : Bool) : Reads (Decoder.bool message) (Encoder.bool v) v := by
  have h : Reads Decoder.u8 (Encoder.u8 v.toNat) v.toNat := u8 (by cases v <;> decide)
  exact h.bind_last (by cases v <;> exact pure _)

end Reads

/-- The count is read back when that many items of the least size follow. -/
theorem run_count {n minimumBytes : ℕ} {rest : Bytes} (hn : n < 2 ^ 64)
    (h : n * max minimumBytes 1 ≤ rest.length) :
    (Decoder.count minimumBytes).run (Encoder.u64 n ++ rest) = .ok (n, rest) := by
  have hle : ¬ rest.length / max minimumBytes 1 < n :=
    not_lt.mpr ((Nat.le_div_iff_mul_le (by omega)).mpr h)
  have hu : Decoder.u64.run (Encoder.u64 n ++ rest) = .ok (n, rest) := Reads.u64 hn rest
  simp only [Decoder.count, StateT.run_bind, hu, ok_bind]
  simp only [Decoder.remaining, StateT.run, hle, if_false, ok_bind]
  rfl

namespace Reads

variable {α σ : Type}

theorem bytes {v : Bytes} (h : v.length < 2 ^ 64) : Reads Decoder.bytes (Encoder.bytes v) v := by
  intro rest
  rw [Decoder.bytes, Encoder.bytes, StateT.run_bind, List.append_assoc,
    run_count h (by simp), ok_bind]
  exact take v rest

theorem string {s : String} (h : s.utf8ByteSize < 2 ^ 64) :
    Reads Decoder.string (Encoder.string s) s := by
  have hlen : s.toUTF8.data.toList.length < 2 ^ 64 := by
    rwa [Array.length_toList, ByteArray.size_data]
  have hs : String.fromUTF8? ⟨s.toUTF8.data.toList.toArray⟩ = some s := by
    have hv : s.toByteArray.IsValidUTF8 := s.isValidUTF8
    simp only [String.fromUTF8?, Array.toArray_toList]
    rw [dif_pos (show ByteArray.IsValidUTF8 ⟨s.toUTF8.data⟩ from hv)]
    rfl
  refine (bytes hlen).bind_last ?_
  rw [hs]
  exact pure s

/-- **Reading a loop**: the body takes the accumulator from each prefix of the
items to the next one. -/
theorem times {body : σ → Decoder σ} {item : α → Bytes} (items : List α) (state : List α → σ)
    (done : List α) (hbody : ∀ before a after, items = before ++ a :: after →
      Reads (body (state (done ++ before))) (item a) (state (done ++ before ++ [a]))) :
    Reads (Decoder.times body items.length (state done)) (items.flatMap item)
      (state (done ++ items)) := by
  induction items generalizing done with
  | nil => simpa [Decoder.times] using pure (state done)
  | cons a items ih =>
    have ha := hbody [] a items rfl
    rw [List.append_nil] at ha
    have hrest := ih (done ++ [a]) fun before b after heq => by
      simpa using hbody (a :: before) b after (by rw [heq]; rfl)
    rw [List.append_assoc] at hrest
    exact ha.bind hrest

/-- Reading behind the number of items that follow. -/
theorem count_bind {minimumBytes : ℕ} {item : α → Bytes} {items : List α} {f : ℕ → Decoder σ}
    {s : σ} (hlen : items.length < 2 ^ 64)
    (hmin : ∀ a ∈ items, max minimumBytes 1 ≤ (item a).length)
    (hf : Reads (f items.length) (items.flatMap item) s) :
    Reads (Decoder.count minimumBytes >>= f) (Encoder.list item items) s := by
  intro rest
  have hbytes : items.length * max minimumBytes 1 ≤ (items.flatMap item ++ rest).length := by
    have := Encoder.length_mul_le hmin
    rw [List.length_append]
    omega
  rw [Encoder.list, StateT.run_bind, List.append_assoc, run_count hlen hbytes, ok_bind]
  exact hf rest

/-- **Reading a counted list** into an accumulator. -/
theorem counted (minimumBytes : ℕ) (body : σ → Decoder σ) (item : α → Bytes) (items : List α)
    (state : List α → σ) (hlen : items.length < 2 ^ 64)
    (hmin : ∀ a ∈ items, max minimumBytes 1 ≤ (item a).length)
    (hbody : ∀ before a after, items = before ++ a :: after →
      Reads (body (state before)) (item a) (state (before ++ [a]))) :
    Reads (Decoder.counted minimumBytes body (state [])) (Encoder.list item items)
      (state items) :=
  count_bind hlen hmin (times items state [] hbody)

/-- A whole record is decoded from its bytes. -/
theorem decode {d : Decoder α} {data : Bytes} {a : α} (h : Reads d data a) :
    Decoder.decode d data = .ok a := by
  have hd : d.run data = .ok (a, []) := by simpa using h []
  have hfinish : Decoder.finish.run [] = .ok ((), []) := rfl
  simp only [Decoder.decode, StateT.run_bind, hd, ok_bind, hfinish]
  rfl

end Reads

end EveDB
