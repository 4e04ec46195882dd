import EveDB.Library.Ascending

/-!
# Merging two sorted lists

A sorted list of entries and a sorted list of keys, merged into one (`SortedList.merged`): every
key of either comes once, in order, with its entry if it has one. The order is kept
(`merged_ascending`), and what comes under a key is what the entries have there
(`mem_merged`).
-/

namespace SortedList

variable {K V : Type} [LinearOrder K]

/-- **Merges entries with keys**, where a key without an entry comes with none. -/
def merged : List (K × V) → List K → List (K × Option V)
  | [], [] => []
  | [], new :: recent => (new, none) :: merged [] recent
  | (old, v) :: entries, [] => (old, some v) :: merged entries []
  | (old, v) :: entries, new :: recent =>
    if old < new then (old, some v) :: merged entries (new :: recent)
    else if new < old then (new, none) :: merged ((old, v) :: entries) recent
    else (old, some v) :: merged entries recent
termination_by entries recent => entries.length + recent.length

variable {entries : List (K × V)} {recent : List K}

/-- The keys of either list come, and no other. -/
theorem mem_keys_merged {k : K} :
    k ∈ (merged entries recent).map Prod.fst ↔ k ∈ entries.map Prod.fst ∨ k ∈ recent := by
  fun_induction merged entries recent with
  | case1 => simp
  | case2 new recent ih =>
    rw [List.map_cons, List.mem_cons, ih, List.mem_cons]
    tauto
  | case3 old v entries ih =>
    rw [List.map_cons, List.mem_cons, ih, List.map_cons, List.mem_cons]
    tauto
  | case4 old v entries new recent hlt ih =>
    rw [List.map_cons, List.mem_cons, ih, List.map_cons, List.mem_cons, List.mem_cons]
    tauto
  | case5 old v entries new recent hlt hgt ih =>
    rw [List.map_cons, List.mem_cons, ih, List.map_cons, List.mem_cons, List.mem_cons]
    tauto
  | case6 old v entries new recent hlt hgt ih =>
    obtain rfl : old = new := le_antisymm (not_lt.mp hgt) (not_lt.mp hlt)
    rw [List.map_cons, List.mem_cons, ih, List.map_cons, List.mem_cons, List.mem_cons]
    tauto

/-- **A merged list is sorted**, and no key comes twice. -/
theorem merged_ascending (hentries : Ascending Prod.fst entries)
    (hrecent : recent.Pairwise (· < ·)) : Ascending Prod.fst (merged entries recent) := by
  -- what is merged behind a key is above it when both lists are
  have hcons {k : K} {v : Option V} {entries : List (K × V)} {recent : List K}
      (hbehind : ∀ e ∈ entries, k < e.1) (hnew : ∀ n ∈ recent, k < n)
      (hrest : Ascending Prod.fst (merged entries recent)) :
      Ascending Prod.fst ((k, v) :: merged entries recent) := by
    refine List.pairwise_cons.mpr ⟨fun e he => ?_, hrest⟩
    rcases mem_keys_merged.mp (List.mem_map_of_mem he) with hmem | hmem
    · obtain ⟨e', he', heq⟩ := List.mem_map.mp hmem
      rw [← heq]
      exact hbehind e' he'
    · exact hnew e.1 hmem
  fun_induction merged entries recent with
  | case1 => exact List.Pairwise.nil
  | case2 new recent ih =>
    obtain ⟨hnew, hrecent⟩ := List.pairwise_cons.mp hrecent
    exact hcons (List.forall_mem_nil _) hnew (ih hentries hrecent)
  | case3 old v entries ih =>
    obtain ⟨hold, hentries⟩ := List.pairwise_cons.mp hentries
    exact hcons hold (List.forall_mem_nil _) (ih hentries hrecent)
  | case4 old v entries new recent hlt ih =>
    obtain ⟨hold, hrest⟩ := List.pairwise_cons.mp hentries
    have hnew := (List.pairwise_cons.mp hrecent).1
    refine hcons hold (List.forall_mem_cons.mpr ⟨hlt, fun n hn => ?_⟩) (ih hrest hrecent)
    exact hlt.trans (hnew n hn)
  | case5 old v entries new recent hlt hgt ih =>
    obtain ⟨hnew, hrest⟩ := List.pairwise_cons.mp hrecent
    have hold := (List.pairwise_cons.mp hentries).1
    refine hcons (List.forall_mem_cons.mpr ⟨hgt, fun e he => ?_⟩) hnew (ih hentries hrest)
    exact hgt.trans (hold e he)
  | case6 old v entries new recent hlt hgt ih =>
    obtain rfl : old = new := le_antisymm (not_lt.mp hgt) (not_lt.mp hlt)
    obtain ⟨hold, hentries⟩ := List.pairwise_cons.mp hentries
    obtain ⟨hnew, hrecent⟩ := List.pairwise_cons.mp hrecent
    exact hcons hold hnew (ih hentries hrecent)

/-- The values that come are those of the entries, in their order. -/
theorem filterMap_merged : (merged entries recent).filterMap Prod.snd = entries.map Prod.snd := by
  fun_induction merged entries recent with
  | case1 => rfl
  | case2 new recent ih => exact ih
  | case3 old v entries ih => exact congrArg (v :: ·) ih
  | case4 old v entries new recent hlt ih => exact congrArg (v :: ·) ih
  | case5 old v entries new recent hlt hgt ih => exact ih
  | case6 old v entries new recent hlt hgt ih => exact congrArg (v :: ·) ih

/-- What comes with an entry is what the entries have. -/
theorem some_mem_merged {k : K} {v : V} :
    (k, some v) ∈ merged entries recent ↔ (k, v) ∈ entries := by
  fun_induction merged entries recent with
  | case1 => simp
  | case2 new recent ih => simp [ih]
  | case3 old v' entries ih => simp [ih]
  | case4 old v' entries new recent hlt ih => simp [ih]
  | case5 old v' entries new recent hlt hgt ih => simp [ih]
  | case6 old v' entries new recent hlt hgt ih => simp [ih]

/-- **What comes under a key** is the entry it has, or none. -/
theorem mem_merged (hentries : Ascending Prod.fst entries) (hrecent : recent.Pairwise (· < ·))
    {k : K} {v : Option V} (h : (k, v) ∈ merged entries recent) :
    v = (lookup Prod.fst k entries).map Prod.snd := by
  rcases v with _ | v
  · -- an entry under the key would have come with it
    rcases hfound : lookup Prod.fst k entries with _ | ⟨k', v⟩
    · rfl
    · obtain ⟨hmem, rfl⟩ := hentries.lookup_eq_some.mp hfound
      have hnodup : ((merged entries recent).map Prod.fst).Nodup :=
        List.pairwise_map.mpr ((merged_ascending hentries hrecent).imp fun hlt => hlt.ne)
      cases List.inj_on_of_nodup_map hnodup h (some_mem_merged.mpr hmem) rfl
  · rw [hentries.lookup_eq_some.mpr ⟨some_mem_merged.mp h, rfl⟩]
    rfl

end SortedList
