import Mathlib.Order.Basic
import Mathlib.Order.Lattice
import Mathlib.Data.List.Basic
import Mathlib.Data.List.Nodup
import Mathlib.Data.List.Pairwise

/-!
# Lists in ascending order of a key

A list whose keys strictly ascend is a sorted map: at most one entry lies under a key
(`SortedList.lookup`), the last one at or below a key is its floor (`SortedList.floor`), and the
entries between two keys are a slice of it (`SortedList.range`).

Each of the three is read off a cut of the list at a key: with everything before the cut below
the key and everything behind it not below, only the ends at the cut matter
(`lookup_of_cut`, `floor_of_cut`, `range_of_cut`). Binary search finds that cut
(`BinarySearch.lowerBound_spec`).
-/

namespace SortedList

variable {α K : Type} [LinearOrder K]

/-- The keys of the list strictly ascend. -/
def Ascending (key : α → K) (l : List α) : Prop := l.Pairwise fun a b => key a < key b

/-- The entry under a key. -/
def lookup (key : α → K) (k : K) (l : List α) : Option α := l.find? fun a => key a = k

/-- The last entry at or below a key. -/
def floor (key : α → K) (k : K) (l : List α) : Option α := (l.filter fun a => key a ≤ k).getLast?

/-- The entries between two keys. -/
def range (key : α → K) (lower upper : K) (l : List α) : List α :=
  l.filter fun a => lower ≤ key a ∧ key a ≤ upper

/-- Two ascending lists with the same entries are equal. -/
theorem Ascending.ext {key : α → K} {l l' : List α} (h : Ascending key l) (h' : Ascending key l')
    (hmem : ∀ a, a ∈ l ↔ a ∈ l') : l = l' := by
  have hnodup {l : List α} (h : Ascending key l) : l.Nodup :=
    h.imp fun hlt heq => hlt.ne (congrArg key heq)
  have hperm := (List.perm_ext_iff_of_nodup (hnodup h) (hnodup h')).mpr hmem
  refine hperm.eq_of_pairwise (fun a b _ _ hab hba => ?_) h h'
  exact absurd (hab.trans hba) (lt_irrefl _)

/-- **What lies under a key** of an ascending list. -/
theorem Ascending.lookup_eq_some {key : α → K} {k : K} {l : List α} {a : α}
    (h : Ascending key l) : lookup key k l = some a ↔ a ∈ l ∧ key a = k := by
  have hfound {b : α} (hb : lookup key k l = some b) : b ∈ l ∧ key b = k := by
    rw [lookup] at hb
    have hkey := List.find?_some hb
    exact ⟨List.mem_of_find?_eq_some hb, of_decide_eq_true hkey⟩
  refine ⟨hfound, ?_⟩
  rintro ⟨ha, rfl⟩
  have hsome : (lookup key (key a) l).isSome := List.find?_isSome.mpr ⟨a, ha, decide_eq_true rfl⟩
  obtain ⟨b, hb⟩ := Option.isSome_iff_exists.mp hsome
  obtain ⟨hmem, hkey⟩ := hfound hb
  -- keys that ascend come once
  have hnodup : (l.map key).Nodup := List.pairwise_map.mpr (h.imp fun hlt => hlt.ne)
  rw [hb, List.inj_on_of_nodup_map hnodup hmem ha hkey]

section Parts

variable {key : α → K} {k lower upper : K} {as bs : List α}

theorem lookup_append_of_lt (h : ∀ a ∈ as, key a < k) :
    lookup key k (as ++ bs) = lookup key k bs := by
  rw [lookup, List.find?_append, List.find?_eq_none.mpr ?_, Option.none_or, lookup]
  intro a ha heq
  exact (h a ha).ne (of_decide_eq_true heq)

theorem lookup_append_of_gt (h : ∀ b ∈ bs, k < key b) :
    lookup key k (as ++ bs) = lookup key k as := by
  have hnone : bs.find? (fun a => key a = k) = none := by
    rw [List.find?_eq_none]
    intro b hb heq
    exact (h b hb).ne' (of_decide_eq_true heq)
  rw [lookup, List.find?_append, hnone, Option.or_none, lookup]

theorem floor_append_of_gt (h : ∀ b ∈ bs, k < key b) :
    floor key k (as ++ bs) = floor key k as := by
  have hnone : bs.filter (fun a => key a ≤ k) = [] := by
    rw [List.filter_eq_nil_iff]
    intro b hb hle
    exact (h b hb).not_ge (of_decide_eq_true hle)
  rw [floor, List.filter_append, hnone, List.append_nil, floor]

/-- The floor lies in the last part that has one. -/
theorem floor_append (as bs : List α) :
    floor key k (as ++ bs) = (floor key k bs).or (floor key k as) := by
  rw [floor, List.filter_append, List.getLast?_append, floor, floor]

/-- Where something is at or below the key, the floor is there. -/
theorem floor_append_of_le (h : ∃ b ∈ bs, key b ≤ k) :
    floor key k (as ++ bs) = floor key k bs := by
  obtain ⟨b, hb, hle⟩ := h
  have hne : bs.filter (fun a => key a ≤ k) ≠ [] :=
    List.ne_nil_of_mem (List.mem_filter.mpr ⟨hb, decide_eq_true hle⟩)
  rw [floor_append, floor, List.getLast?_eq_some_getLast hne, Option.some_or]

theorem range_append (as bs : List α) :
    range key lower upper (as ++ bs) = range key lower upper as ++ range key lower upper bs :=
  List.filter_append _ _

theorem range_of_lt (h : ∀ a ∈ as, key a < lower) : range key lower upper as = [] := by
  rw [range, List.filter_eq_nil_iff]
  intro a ha hle
  exact (h a ha).not_ge (of_decide_eq_true hle).1

theorem range_of_gt (h : ∀ a ∈ as, upper < key a) : range key lower upper as = [] := by
  rw [range, List.filter_eq_nil_iff]
  intro a ha hle
  exact (h a ha).not_ge (of_decide_eq_true hle).2

/-- **The entry under a key** is at the cut, if anywhere. -/
theorem lookup_of_cut (hasc : Ascending key (as ++ bs)) (has : ∀ a ∈ as, key a < k)
    (hbs : ∀ b ∈ bs, k ≤ key b) :
    lookup key k (as ++ bs) = bs.head?.filter fun b => key b = k := by
  rw [lookup_append_of_lt has]
  cases bs with
  | nil => rfl
  | cons b bs =>
    have hrest : ∀ c ∈ bs, k < key c := fun c hc =>
      (hbs b List.mem_cons_self).trans_lt
        (List.rel_of_pairwise_cons (List.pairwise_append.mp hasc).2.1 hc)
    rw [← List.singleton_append, lookup_append_of_gt hrest, List.singleton_append,
      List.head?_cons, lookup, List.find?_singleton, Option.filter_some]

/-- **The floor of a key** is at one of the sides of the cut. -/
theorem floor_of_cut (hasc : Ascending key (as ++ bs)) (has : ∀ a ∈ as, key a < k)
    (hbs : ∀ b ∈ bs, k ≤ key b) :
    floor key k (as ++ bs) = (bs.head?.filter fun b => key b = k).or as.getLast? := by
  have hall : floor key k as = as.getLast? := by
    rw [floor, List.filter_eq_self.mpr fun a ha => decide_eq_true (has a ha).le]
  cases bs with
  | nil => rw [List.append_nil, hall]; rfl
  | cons b bs =>
    have hrest : ∀ c ∈ bs, k < key c := fun c hc =>
      (hbs b List.mem_cons_self).trans_lt
        (List.rel_of_pairwise_cons (List.pairwise_append.mp hasc).2.1 hc)
    have hb : key b ≤ k ↔ key b = k :=
      ⟨fun hle => le_antisymm hle (hbs b List.mem_cons_self), fun heq => heq.le⟩
    rw [← List.singleton_append, ← List.append_assoc, floor_append_of_gt hrest, floor_append, hall,
      List.singleton_append, List.head?_cons, Option.filter_some, floor, List.filter_singleton]
    by_cases h : key b = k
    · simp [h]
    · simp [h, hb]

/-- **The entries from a key on** are those behind the cut, up to the other end. -/
theorem range_of_cut (hasc : Ascending key (as ++ bs)) (has : ∀ a ∈ as, key a < lower)
    (hbs : ∀ b ∈ bs, lower ≤ key b) :
    range key lower upper (as ++ bs) = bs.takeWhile fun b => key b ≤ upper := by
  rw [range_append, range_of_lt has, List.nil_append]
  have hbasc : Ascending key bs := (List.pairwise_append.mp hasc).2.1
  clear hasc
  induction bs with
  | nil => rfl
  | cons b bs ih =>
    have hb := hbs b List.mem_cons_self
    by_cases hle : key b ≤ upper
    · have hin : decide (lower ≤ key b ∧ key b ≤ upper) = true := decide_eq_true ⟨hb, hle⟩
      rw [range, List.filter_cons, if_pos hin, List.takeWhile_cons, if_pos (decide_eq_true hle),
        ← ih (fun c hc => hbs c (List.mem_cons_of_mem b hc)) hbasc.of_cons, range]
    · rw [List.takeWhile_cons_of_neg (by simpa using hle)]
      refine range_of_gt fun c hc => ?_
      rcases List.mem_cons.mp hc with rfl | hc
      · exact not_le.mp hle
      · exact (not_le.mp hle).trans (List.rel_of_pairwise_cons hbasc hc)

end Parts

end SortedList

namespace BinarySearch

/-- The first index of an interval that is not below, when those below come first. -/
def lowerBound (below : ℕ → Bool) (low high : ℕ) : ℕ :=
  if low < high then
    let middle := low + (high - low) / 2
    if below middle then lowerBound below (middle + 1) high else lowerBound below low middle
  else low
termination_by high - low

/-- The search stays within its interval, whatever it looks at. -/
theorem lowerBound_le (below : ℕ → Bool) {low high : ℕ} (hle : low ≤ high) :
    lowerBound below low high ≤ high := by
  fun_induction lowerBound below low high with
  | case1 low high hlt middle hbelow ih => exact ih (by omega)
  | case2 low high hlt middle hbelow ih => exact (ih (by omega)).trans (by omega)
  | case3 low high hnlt => exact hle

/-- The search where looking at an index may fail. -/
def lowerBound? (below : ℕ → Option Bool) (low high : ℕ) : Option ℕ :=
  if low < high then
    let middle := low + (high - low) / 2
    match below middle with
    | none => none
    | some true => lowerBound? below (middle + 1) high
    | some false => lowerBound? below low middle
  else some low
termination_by high - low

/-- **The search looks below its upper end alone.** -/
theorem lowerBound?_eq {below? : ℕ → Option Bool} {below : ℕ → Bool} {low high : ℕ}
    (h : ∀ i < high, below? i = some (below i)) :
    lowerBound? below? low high = some (lowerBound below low high) := by
  fun_induction lowerBound below low high with
  | case1 low high hlt middle hbelow ih =>
    rw [lowerBound?, if_pos hlt]
    dsimp only
    rw [h middle (by omega), hbelow]
    exact ih h
  | case2 low high hlt middle hbelow ih =>
    rw [lowerBound?, if_pos hlt]
    dsimp only
    rw [h middle (by omega), Bool.eq_false_iff.mpr hbelow]
    exact ih fun i hi => h i (by omega)
  | case3 low high hnlt => rw [lowerBound?, if_neg hnlt]

/-- **Binary search finds the cut.** -/
theorem lowerBound_spec {below : ℕ → Bool} {low high : ℕ} (hle : low ≤ high)
    (hmono : ∀ i j, i ≤ j → j < high → below j → below i) :
    low ≤ lowerBound below low high ∧ lowerBound below low high ≤ high ∧
      (∀ i, low ≤ i → i < lowerBound below low high → below i) ∧
      ∀ i, lowerBound below low high ≤ i → i < high → ¬ below i := by
  fun_induction lowerBound below low high with
  | case1 low high hlt middle hbelow ih =>
    obtain ⟨hlow, hhigh, hbefore, hbehind⟩ := ih (by omega) hmono
    refine ⟨by omega, hhigh, fun i hi hlt => ?_, hbehind⟩
    by_cases him : i ≤ middle
    · exact hmono i middle him (by omega) hbelow
    · exact hbefore i (by omega) hlt
  | case2 low high hlt middle hbelow ih =>
    obtain ⟨hlow, hhigh, hbefore, hbehind⟩ :=
      ih (by omega) fun i j hij hj hbelow => hmono i j hij (by omega) hbelow
    refine ⟨hlow, by omega, hbefore, fun i hi hlt hbelow' => ?_⟩
    by_cases him : i < middle
    · exact hbehind i hi him hbelow'
    · exact hbelow (hmono middle i (by omega) hlt hbelow')
  | case3 low high hnlt =>
    exact ⟨le_rfl, hle, fun i hi hlt => by omega, fun i hi hlt => by omega⟩

end BinarySearch
