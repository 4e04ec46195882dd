import EveDB.Library.Ascending

/-!
# Sorted lists in blocks

A sorted list may be kept in blocks, each with the entries of one bucket, where the bucket of an
entry is a monotone function of its key (`SortedList.Blocks`). Then a range is the concatenation
of the ranges of the blocks between the buckets of its ends, and a floor is found by going back
from the bucket of the key to the first block that has one.
-/

namespace SortedList

variable {α K B : Type} [LinearOrder K] [LinearOrder B]

/-- **Blocks of a sorted list**, in the order of their buckets. -/
structure Blocks (key : α → K) (bucket : K → B) (blocks : List (B × List α)) : Prop where
  ordered : blocks.Pairwise fun b c => b.1 < c.1
  ascending : ∀ b ∈ blocks, Ascending key b.2
  inside : ∀ b ∈ blocks, ∀ a ∈ b.2, bucket (key a) = b.1

section Blocks

variable {key : α → K} {bucket : K → B} {block : B × List α} {blocks : List (B × List α)}
  {k lower upper : K}

theorem Blocks.of_cons (h : Blocks key bucket (block :: blocks)) : Blocks key bucket blocks where
  ordered := (List.pairwise_cons.mp h.ordered).2
  ascending b hb := h.ascending b (List.mem_cons_of_mem _ hb)
  inside b hb := h.inside b (List.mem_cons_of_mem _ hb)

/-- What is behind a block lies in later buckets. -/
theorem Blocks.bucket_lt (h : Blocks key bucket (block :: blocks)) {a : α}
    (ha : a ∈ blocks.flatMap Prod.snd) : block.1 < bucket (key a) := by
  obtain ⟨b, hb, ha⟩ := List.mem_flatMap.mp ha
  rw [h.inside b (List.mem_cons_of_mem _ hb) a ha]
  exact (List.pairwise_cons.mp h.ordered).1 b hb

/-- **The blocks make up a sorted list.** -/
theorem Blocks.flatMap_ascending (h : Blocks key bucket blocks) (hmono : Monotone bucket) :
    Ascending key (blocks.flatMap Prod.snd) := by
  induction blocks with
  | nil => exact List.Pairwise.nil
  | cons block blocks ih =>
    rw [List.flatMap_cons]
    refine List.pairwise_append.mpr
      ⟨h.ascending block List.mem_cons_self, ih h.of_cons, fun a ha b hb => ?_⟩
    refine hmono.reflect_lt ?_
    rw [h.inside block List.mem_cons_self a ha]
    exact h.bucket_lt hb

/-- **The floor of a key** is in the last block at or before its bucket that has one. -/
theorem Blocks.floor_eq (h : Blocks key bucket blocks) (hmono : Monotone bucket) :
    floor key k (blocks.flatMap Prod.snd) =
      (blocks.filter fun b => b.1 ≤ bucket k).reverse.findSome? fun b => floor key k b.2 := by
  induction blocks with
  | nil => rfl
  | cons block blocks ih =>
    rw [List.flatMap_cons, floor_append, ih h.of_cons]
    by_cases hle : block.1 ≤ bucket k
    · rw [List.filter_cons_of_pos (by rwa [decide_eq_true_eq]), List.reverse_cons,
      List.findSome?_append]
      congr 1
      rw [List.findSome?_cons, List.findSome?_nil]
      cases floor key k block.2 <;> rfl
    · have hnone : floor key k block.2 = none := by
        have habove : ∀ a ∈ block.2, k < key a := fun a ha => by
          refine hmono.reflect_lt ?_
          rw [h.inside block List.mem_cons_self a ha]
          exact not_le.mp hle
        rw [← List.nil_append block.2, floor_append_of_gt habove]
        rfl
      rw [List.filter_cons_of_neg (by rwa [decide_eq_true_eq]), hnone, Option.or_none]

/-- **A range** is that of the blocks between the buckets of its ends. -/
theorem Blocks.range_eq (h : Blocks key bucket blocks) (hmono : Monotone bucket) :
    range key lower upper (blocks.flatMap Prod.snd) =
      (blocks.filter fun b => bucket lower ≤ b.1 ∧ b.1 ≤ bucket upper).flatMap fun b =>
        range key lower upper b.2 := by
  induction blocks with
  | nil => rfl
  | cons block blocks ih =>
    rw [List.flatMap_cons, range_append, ih h.of_cons]
    by_cases hwithin : bucket lower ≤ block.1 ∧ block.1 ≤ bucket upper
    · rw [List.filter_cons_of_pos (by rwa [decide_eq_true_eq]), List.flatMap_cons]
    · have hnone : range key lower upper block.2 = [] := by
        rw [range, List.filter_eq_nil_iff]
        intro a ha hle
        obtain ⟨hlower, hupper⟩ := of_decide_eq_true hle
        apply hwithin
        rw [← h.inside block List.mem_cons_self a ha]
        exact ⟨hmono hlower, hmono hupper⟩
      rw [List.filter_cons_of_neg (by rwa [decide_eq_true_eq]), hnone, List.nil_append]

end Blocks

end SortedList
