import Mathlib.Data.List.Basic
import Mathlib.Data.List.TakeDrop

/-!
# Buffers that are overwritten in place

A byte buffer of fixed length, read in slices (`Buffer.slice`) and overwritten in place
(`Buffer.write`). A write never changes the length; what would fall behind the end is dropped.

The two laws everything else rests on are that a slice reads back what was last written there
(`Buffer.slice_write`) and that a slice apart from a write does not see it
(`Buffer.slice_write_of_apart`). The bytes outside a write are left as they were
(`Buffer.take_write`, `Buffer.drop_write`).
-/

namespace Buffer

variable {α : Type}

/-- The `n` cells from `pos` on. -/
def slice (buffer : List α) (pos n : ℕ) : List α := (buffer.drop pos).take n

/-- Overwrites the cells from `pos` on. -/
def write : List α → ℕ → List α → List α
  | [], _, _ => []
  | a :: buffer, 0, [] => a :: buffer
  | _ :: buffer, 0, b :: data => b :: write buffer 0 data
  | a :: buffer, pos + 1, data => a :: write buffer pos data

@[simp] theorem length_write (buffer : List α) (pos : ℕ) (data : List α) :
    (write buffer pos data).length = buffer.length := by
  fun_induction write buffer pos data with
  | case1 => rfl
  | case2 => rfl
  | case3 a buffer b data ih => rw [List.length_cons, ih, List.length_cons]
  | case4 a buffer pos data ih => rw [List.length_cons, ih, List.length_cons]

/-- **A write within a buffer** replaces a slice of it. -/
theorem write_eq {buffer : List α} {pos : ℕ} {data : List α}
    (h : pos + data.length ≤ buffer.length) :
    write buffer pos data = buffer.take pos ++ (data ++ buffer.drop (pos + data.length)) := by
  fun_induction write buffer pos data with
  | case1 pos data =>
    have hdata : data.length = 0 := by
      rw [List.length_nil] at h
      omega
    obtain rfl := List.eq_nil_of_length_eq_zero hdata
    simp
  | case2 => simp
  | case3 a buffer b data ih =>
    rw [ih (by simpa using h)]
    simp
  | case4 a buffer pos data ih =>
    rw [ih (by simp only [List.length_cons] at h; omega), List.take_succ_cons, List.cons_append,
      Nat.succ_add, List.drop_succ_cons]

theorem take_write {buffer : List α} {pos n : ℕ} {data : List α} (hn : n ≤ pos)
    (h : pos + data.length ≤ buffer.length) : (write buffer pos data).take n = buffer.take n := by
  rw [write_eq h, List.take_append_of_le_length (by rw [List.length_take]; omega), List.take_take,
    Nat.min_eq_left hn]

theorem drop_write {buffer : List α} {pos n : ℕ} {data : List α} (hn : pos + data.length ≤ n)
    (h : pos + data.length ≤ buffer.length) : (write buffer pos data).drop n = buffer.drop n := by
  have hlen : (buffer.take pos ++ data).length = pos + data.length := by
    rw [List.length_append, List.length_take]
    omega
  obtain ⟨d, rfl⟩ := Nat.exists_eq_add_of_le hn
  rw [write_eq h, ← List.append_assoc, ← List.drop_drop, List.drop_left' hlen, List.drop_drop]

@[simp] theorem length_slice (buffer : List α) (pos n : ℕ) :
    (slice buffer pos n).length = min n (buffer.length - pos) := by
  rw [slice, List.length_take, List.length_drop]

/-- **A slice reads back what was written.** -/
theorem slice_write {buffer : List α} {pos : ℕ} {data : List α}
    (h : pos + data.length ≤ buffer.length) :
    slice (write buffer pos data) pos data.length = data := by
  rw [slice, write_eq h, List.drop_left' (by rw [List.length_take]; omega), List.take_left]

/-- **A slice apart from a write** is left as it was. -/
theorem slice_write_of_apart {buffer : List α} {pos off n : ℕ} {data : List α}
    (h : pos + data.length ≤ buffer.length) (hapart : off + n ≤ pos ∨ pos + data.length ≤ off) :
    slice (write buffer pos data) off n = slice buffer off n := by
  rcases hapart with hbefore | hbehind
  · have htake (l : List α) : (l.drop off).take n = (l.take (off + n)).drop off := by
      rw [List.drop_take, Nat.add_sub_cancel_left]
    rw [slice, slice, htake, htake, take_write hbefore h]
  · rw [slice, slice, drop_write hbehind h]

end Buffer
