import Mathlib.Data.List.Basic
import Mathlib.Data.List.Flatten

/-!
# Chunks of a list

A list cut into pieces of a given size, the last of which may be shorter
(`Chunks.chunks`). The pieces make up the list (`Chunks.flatten_chunks`), none is empty or too
long, and unless there is only one there are fewer of them than entries
(`Chunks.length_chunks_lt`), which is what makes a tree that is built level by level from its
leaves come to a root.
-/

namespace Chunks

variable {α : Type}

/-- The list in pieces of `size`; the size is at least one. -/
def chunks (size : ℕ) : List α → List (List α)
  | [] => []
  | a :: l => (a :: l.take (size - 1)) :: chunks size (l.drop (size - 1))
termination_by l => l.length

@[simp] theorem chunks_nil (size : ℕ) : chunks size ([] : List α) = [] := by rw [chunks]

/-- **The pieces make up the list.** -/
@[simp] theorem flatten_chunks (size : ℕ) (l : List α) : (chunks size l).flatten = l := by
  fun_induction chunks size l with
  | case1 => rfl
  | case2 a l ih => rw [List.flatten_cons, ih, List.cons_append, List.take_append_drop]

/-- No piece is empty. -/
theorem ne_nil_of_mem_chunks {size : ℕ} {l c : List α} (h : c ∈ chunks size l) : c ≠ [] := by
  fun_induction chunks size l with
  | case1 => cases h
  | case2 a l ih =>
    rcases List.mem_cons.mp h with rfl | h
    · exact List.cons_ne_nil _ _
    · exact ih h

/-- No piece is too long. -/
theorem length_le_of_mem_chunks {size : ℕ} (hsize : 0 < size) {l c : List α}
    (h : c ∈ chunks size l) : c.length ≤ size := by
  fun_induction chunks size l with
  | case1 => cases h
  | case2 a l ih =>
    rcases List.mem_cons.mp h with rfl | h
    · rw [List.length_cons, List.length_take]
      omega
    · exact ih h

theorem chunks_ne_nil {size : ℕ} {l : List α} (h : l ≠ []) : chunks size l ≠ [] := by
  obtain ⟨a, l, rfl⟩ := List.exists_cons_of_ne_nil h
  rw [chunks]
  exact List.cons_ne_nil _ _

/-- **How many pieces there are**: the length divided by the size, rounded up. -/
theorem length_chunks {size : ℕ} (hsize : 0 < size) (l : List α) :
    (chunks size l).length = (l.length + (size - 1)) / size := by
  fun_induction chunks size l with
  | case1 => exact (Nat.div_eq_of_lt (by rw [List.length_nil]; omega)).symm
  | case2 a l ih =>
    rw [List.length_cons, ih, List.length_drop, List.length_cons]
    by_cases hshort : l.length ≤ size - 1
    · rw [Nat.sub_eq_zero_of_le hshort, Nat.div_eq_of_lt (by omega), eq_comm,
        Nat.div_eq_iff hsize]
      omega
    · have hsplit : l.length + 1 + (size - 1) = (l.length - (size - 1) + (size - 1)) + size := by
        omega
      rw [hsplit, Nat.add_div_right _ hsize]

theorem length_chunks_le (size : ℕ) (l : List α) : (chunks size l).length ≤ l.length := by
  fun_induction chunks size l with
  | case1 => exact Nat.le_refl _
  | case2 a l ih =>
    rw [List.length_drop] at ih
    rw [List.length_cons, List.length_cons]
    omega

/-- **There are fewer pieces than entries**, if a piece can hold more than one. -/
theorem length_chunks_lt {size : ℕ} (hsize : 1 < size) {l : List α} (h : 1 < l.length) :
    (chunks size l).length < l.length := by
  have hne : l ≠ [] := List.ne_nil_of_length_pos (Nat.zero_lt_of_lt h)
  obtain ⟨a, l, rfl⟩ := List.exists_cons_of_ne_nil hne
  have hle := length_chunks_le size (l.drop (size - 1))
  rw [List.length_cons] at h
  rw [List.length_drop] at hle
  rw [chunks, List.length_cons, List.length_cons]
  omega

end Chunks
