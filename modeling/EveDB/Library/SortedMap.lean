import Mathlib.Data.Nat.Notation
import Mathlib.Data.List.Basic
import Mathlib.Data.List.Nodup
import Std.Data.ExtTreeMap
import Std.Data.ExtTreeSet
import Mathlib.Tactic.Tauto

/-!
# Sorted maps

Ordered maps and sets over keys compared lexicographically, and the facts about
rebuilding one from its entries: a map is the insertion of its entries in order
(`SortedMap.ofList_toList`), and none of them is met twice on the way
(`SortedMap.not_mem_ofList_of_toList`).
-/

attribute [instance] lexOrd

/-- A map whose entries are kept in the order of their keys. -/
abbrev SortedMap (κ α : Type) [Ord κ] := Std.ExtTreeMap κ α compare

/-- A set whose elements are kept in order. -/
abbrev SortedSet (κ : Type) [Ord κ] := Std.ExtTreeSet κ compare

namespace SortedMap

open Std

/-- Comparing through an injection is a lawful comparison. -/
theorem lawfulEqCmp_compareOn {α β : Type} [Ord β] [LawfulEqOrd β] {f : α → β}
    (hf : Function.Injective f) : LawfulEqCmp (compareOn f : α → α → Ordering) where
  compare_self := ReflOrd.compare_self (α := β)
  eq_of_compare h := hf (LawfulEqOrd.eq_of_compare h)

@[simp] theorem toList_empty {κ α : Type} [Ord κ] [TransOrd κ] :
    (∅ : SortedMap κ α).toList = [] := rfl

section OfList

variable {κ α : Type} [Ord κ] [TransOrd κ]

theorem ofList_append_singleton (l : List (κ × α)) (k : κ) (v : α) :
    ExtTreeMap.ofList (l ++ [(k, v)]) compare = (ExtTreeMap.ofList l compare).insert k v := by
  rw [ExtTreeMap.ofList_eq_insertMany_empty, ExtTreeMap.ofList_eq_insertMany_empty,
    ExtTreeMap.insertMany_append, ExtTreeMap.insertMany_list_singleton]

variable [LawfulEqOrd κ]

/-- A map holds exactly the keys it was made of. -/
theorem mem_ofList {l : List (κ × α)} {k : κ} :
    k ∈ ExtTreeMap.ofList l compare ↔ ∃ v, (k, v) ∈ l := by
  let _ : BEq κ := ⟨fun a b => compare a b == .eq⟩
  have hbeq (a b : κ) : (a == b) = true ↔ compare a b = .eq :=
    show (compare a b == .eq) = true ↔ _ from beq_iff_eq
  have _ : LawfulBEqCmp (compare : κ → κ → Ordering) := ⟨fun {a b} => (hbeq a b).symm⟩
  have _ : LawfulBEq κ :=
    { eq_of_beq := fun {a b} h => LawfulEqOrd.eq_of_compare ((hbeq a b).mp h)
      rfl := fun {a} => (hbeq a a).mpr ReflOrd.compare_self }
  rw [ExtTreeMap.mem_ofList, List.contains_iff_mem, List.mem_map]
  constructor
  · rintro ⟨⟨k', v⟩, h, rfl⟩
    exact ⟨v, h⟩
  · rintro ⟨v, h⟩
    exact ⟨(k, v), h, rfl⟩

/-- **A map is rebuilt from its entries.** -/
theorem ofList_toList (m : SortedMap κ α) : ExtTreeMap.ofList m.toList compare = m := by
  apply ExtTreeMap.ext_getElem?
  intro k
  cases h : m[k]? with
  | some v =>
    exact ExtTreeMap.getElem?_ofList_of_mem (k := k) ReflOrd.compare_self
      ExtTreeMap.distinct_keys_toList (ExtTreeMap.mem_toList_iff_getElem?_eq_some.mpr h)
  | none =>
    refine ExtTreeMap.getElem?_eq_none fun hmem => ?_
    obtain ⟨v, hv⟩ := mem_ofList.mp hmem
    rw [ExtTreeMap.mem_toList_iff_getElem?_eq_some, h] at hv
    cases hv

/-- **No key of a map comes twice among its entries.** -/
theorem not_mem_ofList_of_toList {m : SortedMap κ α} {before after : List (κ × α)} {k : κ} {v : α}
    (h : m.toList = before ++ (k, v) :: after) : k ∉ ExtTreeMap.ofList before compare := by
  rw [mem_ofList]
  rintro ⟨w, hw⟩
  have hd := ExtTreeMap.distinct_keys_toList (t := m)
  rw [h, List.pairwise_append] at hd
  exact hd.2.2 (k, w) hw (k, v) List.mem_cons_self ReflOrd.compare_self

/-- The entries of a map are different. -/
theorem nodup_toList (m : SortedMap κ α) : m.toList.Nodup := by
  refine ExtTreeMap.distinct_keys_toList.imp fun h heq => h ?_
  rw [heq]
  exact ReflOrd.compare_self

/-- **A new entry is added to the entries**, wherever its place is. -/
theorem toList_insert_perm {m : SortedMap κ α} {k : κ} (hk : k ∉ m) (v : α) :
    (m.insert k v).toList.Perm ((k, v) :: m.toList) := by
  have hnew : (k, v) ∉ m.toList := fun hmem =>
    hk (ExtTreeMap.mem_iff_isSome_getElem?.mpr (by
      rw [ExtTreeMap.mem_toList_iff_getElem?_eq_some.mp hmem]
      rfl))
  refine (List.perm_ext_iff_of_nodup (nodup_toList _)
    (List.nodup_cons.mpr ⟨hnew, nodup_toList m⟩)).mpr fun ⟨a, b⟩ => ?_
  rw [ExtTreeMap.mem_toList_iff_getElem?_eq_some, ExtTreeMap.getElem?_insert, List.mem_cons,
    ExtTreeMap.mem_toList_iff_getElem?_eq_some, Prod.mk.injEq]
  rcases eq_or_ne k a with rfl | hne
  · rw [if_pos ReflOrd.compare_self, ExtTreeMap.getElem?_eq_none hk]
    simp [eq_comm]
  · rw [if_neg fun h => hne (LawfulEqOrd.eq_of_compare h)]
    simp [hne.symm]

/-- An insertion leaves the other keys alone. -/
theorem getElem?_insert_of_ne {m : SortedMap κ α} {k k' : κ} (hne : k' ≠ k) (v : α) :
    (m.insert k v)[k']? = m[k']? := by
  rw [ExtTreeMap.getElem?_insert, if_neg]
  exact fun heq => hne (LawfulEqOrd.eq_of_compare heq).symm

/-- A list with different keys becomes a map with its entries. -/
theorem getElem?_ofList_of_mem {l : List (κ × α)} (hnodup : (l.map Prod.fst).Nodup) {k : κ} {v : α}
    (hmem : (k, v) ∈ l) : (ExtTreeMap.ofList l compare)[k]? = some v := by
  refine ExtTreeMap.getElem?_ofList_of_mem ReflOrd.compare_self ?_ hmem
  exact (List.pairwise_map.mp hnodup).imp fun hne heq => hne (LawfulEqOrd.eq_of_compare heq)

/-- What is found behind entries that were inserted is one of them, or was there before. -/
theorem of_getElem?_insertMany {m : SortedMap κ α} {l : List (κ × α)} {k : κ} {v : α}
    (h : (m.insertMany l)[k]? = some v) : (k, v) ∈ l ∨ m[k]? = some v := by
  induction l generalizing m with
  | nil =>
    rw [ExtTreeMap.insertMany_nil] at h
    exact Or.inr h
  | cons p l ih =>
    rw [ExtTreeMap.insertMany_cons] at h
    rcases ih h with hmem | hfound
    · exact Or.inl (List.mem_cons_of_mem p hmem)
    · rw [ExtTreeMap.getElem?_insert] at hfound
      split at hfound
      · next heq =>
        obtain rfl := LawfulEqOrd.eq_of_compare heq
        cases hfound
        exact Or.inl List.mem_cons_self
      · exact Or.inr hfound

/-- What is there behind entries that were inserted. -/
theorem mem_insertMany {m : SortedMap κ α} {l : List (κ × α)} {k : κ} :
    k ∈ m.insertMany l ↔ k ∈ m ∨ k ∈ l.map Prod.fst := by
  induction l generalizing m with
  | nil => rw [ExtTreeMap.insertMany_nil, List.map_nil, or_iff_left List.not_mem_nil]
  | cons p l ih =>
    rw [ExtTreeMap.insertMany_cons, ih, ExtTreeMap.mem_insert, List.map_cons, List.mem_cons]
    constructor
    · rintro ((heq | hmem) | hmem)
      · exact Or.inr (Or.inl (LawfulEqOrd.eq_of_compare heq).symm)
      · exact Or.inl hmem
      · exact Or.inr (Or.inr hmem)
    · rintro (hmem | rfl | hmem)
      · exact Or.inl (Or.inr hmem)
      · exact Or.inl (Or.inl ReflOrd.compare_self)
      · exact Or.inr hmem

/-- **A map laid over another one** hides its entries. -/
theorem getElem?_insertMany_toList (m n : SortedMap κ α) (k : κ) :
    (m.insertMany n.toList)[k]? = (n[k]?).or m[k]? := by
  let _ : BEq κ := ⟨fun a b => compare a b == .eq⟩
  have hbeq (a b : κ) : (a == b) = true ↔ compare a b = .eq :=
    show (compare a b == .eq) = true ↔ _ from beq_iff_eq
  have _ : LawfulBEqCmp (compare : κ → κ → Ordering) := ⟨fun {a b} => (hbeq a b).symm⟩
  have _ : LawfulBEq κ :=
    { eq_of_beq := fun {a b} h => LawfulEqOrd.eq_of_compare ((hbeq a b).mp h)
      rfl := fun {a} => (hbeq a a).mpr ReflOrd.compare_self }
  cases h : n[k]? with
  | some v =>
    rw [Option.some_or]
    exact ExtTreeMap.getElem?_insertMany_list_of_mem ReflOrd.compare_self
      ExtTreeMap.distinct_keys_toList (ExtTreeMap.mem_toList_iff_getElem?_eq_some.mpr h)
  | none =>
    rw [Option.none_or]
    refine ExtTreeMap.getElem?_insertMany_list_of_contains_eq_false ?_
    rw [← Bool.not_eq_true, List.contains_iff_mem, List.mem_map]
    rintro ⟨⟨a, v⟩, hmem, rfl⟩
    rw [ExtTreeMap.mem_toList_iff_getElem?_eq_some, h] at hmem
    cases hmem

/-- The entries of a map laid over another one. -/
theorem toList_insertMany_perm (m n : SortedMap κ α) :
    (m.insertMany n.toList).toList.Perm
      ((m.toList.map fun p => (p.1, (n[p.1]?).getD p.2)) ++
        n.toList.filter fun p => ¬ m.contains p.1) := by
  have hmem (m : SortedMap κ α) (k : κ) (v : α) : (k, v) ∈ m.toList ↔ m[k]? = some v :=
    ExtTreeMap.mem_toList_iff_getElem?_eq_some
  have hold {p : κ × α} (hp : p ∈ m.toList.map fun p => (p.1, (n[p.1]?).getD p.2)) :
      p.1 ∈ m := by
    obtain ⟨q, hq, rfl⟩ := List.mem_map.mp hp
    exact ExtTreeMap.mem_iff_isSome_getElem?.mpr (by rw [(hmem m _ _).mp hq]; rfl)
  have hnodup : (m.toList.map fun p => (p.1, (n[p.1]?).getD p.2)).Nodup := by
    refine List.Nodup.map_on (fun a ha b hb heq => ?_) (nodup_toList m)
    have hkey : a.1 = b.1 := (Prod.mk.inj heq).1
    have ha' := (hmem m _ _).mp ha
    rw [hkey, (hmem m _ _).mp hb] at ha'
    exact Prod.ext hkey (Option.some.inj ha').symm
  have hdisjoint : List.Disjoint (m.toList.map fun p => (p.1, (n[p.1]?).getD p.2))
      (n.toList.filter fun p => ¬ m.contains p.1) := by
    intro p hp hp'
    have hnot : ¬ m.contains p.1 := of_decide_eq_true (List.mem_filter.mp hp').2
    exact hnot (ExtTreeMap.mem_iff_contains.mp (hold hp))
  refine (List.perm_ext_iff_of_nodup (nodup_toList _)
    (hnodup.append ((nodup_toList n).filter _) hdisjoint)).mpr fun ⟨k, v⟩ => ?_
  rw [hmem, getElem?_insertMany_toList, List.mem_append, List.mem_filter, hmem]
  constructor
  · intro h
    cases hm : m[k]? with
    | some w =>
      rw [hm] at h
      refine Or.inl (List.mem_map.mpr ⟨(k, w), (hmem m k w).mpr hm, ?_⟩)
      cases hn : n[k]? with
      | some u =>
        rw [hn] at h
        cases h
        rfl
      | none =>
        rw [hn] at h
        cases h
        rfl
    | none =>
      rw [hm, Option.or_none] at h
      refine Or.inr ⟨h, decide_eq_true fun hc => ?_⟩
      have := ExtTreeMap.mem_iff_isSome_getElem?.mp (ExtTreeMap.mem_iff_contains.mpr hc)
      rw [hm] at this
      cases this
  · rintro (h | ⟨h, -⟩)
    · obtain ⟨⟨a, w⟩, hp, heq⟩ := List.mem_map.mp h
      cases heq
      rw [(hmem m _ _).mp hp]
      cases n[a]? <;> rfl
    · rw [h, Option.some_or]

end OfList

section OfListSet

variable {κ : Type} [Ord κ] [TransOrd κ] [LawfulEqOrd κ] [DecidableEq κ]

theorem mem_setOfList {l : List κ} {k : κ} : k ∈ ExtTreeSet.ofList l compare ↔ k ∈ l := by
  rw [ExtTreeSet.mem_ofList, List.contains_iff_mem]

theorem setOfList_append_singleton (l : List κ) (k : κ) :
    ExtTreeSet.ofList (l ++ [k]) compare = (ExtTreeSet.ofList l compare).insert k := by
  apply ExtTreeSet.ext_mem
  intro a
  rw [mem_setOfList, ExtTreeSet.mem_insert, mem_setOfList, LawfulEqOrd.compare_eq_iff_eq,
    List.mem_append, List.mem_singleton]
  tauto

/-- **A set is rebuilt from its elements.** -/
theorem setOfList_toList (s : SortedSet κ) : ExtTreeSet.ofList s.toList compare = s := by
  apply ExtTreeSet.ext_mem
  intro a
  rw [mem_setOfList, ExtTreeSet.mem_toList]

/-- No element of a set comes twice in its list. -/
theorem not_mem_setOfList_of_toList {s : SortedSet κ} {before after : List κ} {k : κ}
    (h : s.toList = before ++ k :: after) : k ∉ ExtTreeSet.ofList before compare := by
  rw [mem_setOfList]
  intro hk
  have hd := ExtTreeSet.distinct_toList (t := s)
  rw [h, List.pairwise_append] at hd
  exact hd.2.2 k hk k List.mem_cons_self ReflOrd.compare_self

end OfListSet

end SortedMap
