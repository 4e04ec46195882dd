import EveDB.Library.SortedMap
import Mathlib.Algebra.BigOperators.Group.List.Lemmas
import Mathlib.Tactic.Ring

/-!
# Totals over a map

The sum of what the entries of a sorted map weigh (`SortedMap.total`), and how it changes when one
entry does: what an insertion adds is what the new entry weighs, less what the old one did
(`total_insert`).
-/

namespace SortedMap

open Std

variable {κ α : Type} [Ord κ] [TransOrd κ] [LawfulEqOrd κ]

/-- What the entries of a map weigh together. -/
def total (weight : κ → α → ℕ) (m : SortedMap κ α) : ℕ := (m.toList.map fun p => weight p.1 p.2).sum

/-- What the entry under a key weighs, if there is one. -/
def weightAt (weight : κ → α → ℕ) (m : SortedMap κ α) (k : κ) : ℕ :=
  (m[k]?.map (weight k)).getD 0

variable {weight : κ → α → ℕ} {m : SortedMap κ α} {k : κ}

omit [LawfulEqOrd κ] in
theorem total_empty : total weight (∅ : SortedMap κ α) = 0 := by
  rw [total, toList_empty]
  rfl

/-- A new entry adds what it weighs. -/
theorem total_insert_of_not_mem (hk : k ∉ m) (v : α) :
    total weight (m.insert k v) = weight k v + total weight m := by
  rw [total, ((toList_insert_perm hk v).map fun p => weight p.1 p.2).sum_eq, List.map_cons,
    List.sum_cons]
  rfl

/-- An entry that is put in again changes nothing. -/
theorem insert_of_get {v : α} (h : m[k]? = some v) : m.insert k v = m := by
  refine ExtTreeMap.ext_getElem? fun a => ?_
  rw [ExtTreeMap.getElem?_insert]
  split
  · next heq => rw [← LawfulEqOrd.eq_of_compare heq, h]
  · rfl

/-- **An erased entry** takes away what it weighed. -/
theorem total_erase (weight : κ → α → ℕ) (m : SortedMap κ α) (k : κ) :
    total weight (m.erase k) + weightAt weight m k = total weight m := by
  rcases hget : m[k]? with _ | v
  · have herase : m.erase k = m := by
      refine ExtTreeMap.ext_getElem? fun a => ?_
      rw [ExtTreeMap.getElem?_erase]
      split
      · next heq => rw [← LawfulEqOrd.eq_of_compare heq, hget]
      · rfl
    rw [herase, weightAt, hget]
    rfl
  · have hinsert : (m.erase k).insert k v = m := by
      refine ExtTreeMap.ext_getElem? fun a => ?_
      rw [ExtTreeMap.getElem?_insert]
      split
      · next heq => rw [← LawfulEqOrd.eq_of_compare heq, hget]
      · next hne => rw [ExtTreeMap.getElem?_erase, if_neg hne]
    have hnew : k ∉ m.erase k := by
      rw [ExtTreeMap.mem_erase]
      exact fun h => h.1 ReflOrd.compare_self
    have htotal := @total_insert_of_not_mem _ _ _ _ _ weight _ _ hnew v
    rw [hinsert] at htotal
    rw [htotal, weightAt, hget, Nat.add_comm]
    rfl

/-- **An insertion** adds what the new entry weighs, less what the old one did. -/
theorem total_insert (weight : κ → α → ℕ) (m : SortedMap κ α) (k : κ) (v : α) :
    total weight (m.insert k v) + weightAt weight m k = total weight m + weight k v := by
  have hinsert : (m.erase k).insert k v = m.insert k v := by
    refine ExtTreeMap.ext_getElem? fun a => ?_
    rw [ExtTreeMap.getElem?_insert, ExtTreeMap.getElem?_insert]
    split
    · rfl
    · next hne => rw [ExtTreeMap.getElem?_erase, if_neg hne]
  have hnew : k ∉ m.erase k := by
    rw [ExtTreeMap.mem_erase]
    exact fun h => h.1 ReflOrd.compare_self
  have herase := total_erase weight m k
  rw [← hinsert, total_insert_of_not_mem hnew]
  omega

end SortedMap
