import EveDB.Builder.Slots
import EveDB.Store.Options
import Mathlib.Algebra.Order.BigOperators.Group.List

/-!
# Planning a collection

Before a checkpoint is built the collector decides how many live entities of each generation move
into the new one (`Root.collectionPlan`). It goes through the generations twice: once under the
budget of `collectEntities`, the ones that lost density first (`drain`), and once more for as long
as the manifest would not fit its slots (`fitSlots`). A quota of `maxU64` drains a generation
whole, and its slot with it.

Whether a generation has lost density is a comparison of floating-point numbers; nothing here
depends on how it comes out (`sparse`).
-/

namespace EveDB

open Std Store

/-! ### The plan -/

namespace Root

variable (root : Root)

/-- What a generation slot holds, over all tables. -/
def totals (slot : ℕ) : Occupancy :=
  root.occupancy.toList.foldl (fun total entry =>
    if entry.1.2 = slot then
      ⟨total.entities + entry.2.entities, total.dead + entry.2.dead⟩
    else total) ⟨0, 0⟩

/-- The entities of a generation slot that are still current. -/
def live (slot : ℕ) : ℕ := (root.totals slot).entities - (root.totals slot).dead

end Root

/-- A generation that can be drained: whether it is dense, what is live in it, and its number. -/
abbrev Candidate := Bool × ℕ × ℕ

/-- The first pass: drains generations as long as the budget lasts, dense ones only to keep the
manifest short. What is left of the budget goes to the first one that is too large for it. -/
def drain (maxGenerations : ℕ) :
    List Candidate → (slots budget : ℕ) → BTreeMap ℕ → BTreeMap ℕ × ℕ
  | [], slots, _, plan => (plan, slots)
  | (dense, live, generation) :: queue, slots, budget, plan =>
    if budget = 0 ∨ (dense ∧ slots ≤ maxGenerations) then (plan, slots)
    else if budget < live then (plan.insert generation budget, slots)
    else
      drain maxGenerations queue (slots - 1) (budget - live) (plan.insert generation maxU64)

/-- The second pass: drains whole generations until the manifest fits. -/
def fitSlots : List Candidate → (slots : ℕ) → BTreeMap ℕ → BTreeMap ℕ
  | [], _, plan => plan
  | (_, _, generation) :: queue, slots, plan =>
    if slots < maxSlots then plan
    else
      fitSlots queue (if plan[generation]? = some maxU64 then slots else slots - 1)
        (plan.insert generation maxU64)

namespace Root

variable (sparse : Occupancy → Bool) (options : Options) (root : Root)

/-- The generations with nothing to copy, whose files can go at no cost. -/
def emptied : BTreeMap ℕ :=
  (root.generations.zipIdx.filter fun (_, slot) => root.live slot = 0).foldl
    (fun plan (entry, _) => plan.insert entry.generation maxU64) ∅

/-- The others, those that lost density first and the cheapest first within each group. -/
def queue : List Candidate :=
  ((root.generations.zipIdx.filter fun (_, slot) => root.live slot ≠ 0).map
    fun (entry, slot) => (! sparse (root.totals slot), root.live slot, entry.generation)).mergeSort
    fun a b => (compare a b).isLE

/-- What the budget leaves of the generations, and how many the next manifest would have. -/
def budgeted : BTreeMap ℕ × ℕ :=
  drain options.maxGenerations (root.queue sparse)
    (root.generations.length - root.emptied.size + 1)
    (if options.collectEntities = 0 then maxU64 else options.collectEntities) root.emptied

/-- **How many live entities of each generation the next checkpoint moves.** -/
def collectionPlan : BTreeMap ℕ :=
  fitSlots (root.queue sparse) (root.budgeted sparse options).2 (root.budgeted sparse options).1

/-- The generations a plan drains completely, which leave the manifest. -/
def absorbed (plan : BTreeMap ℕ) : SortedSet ℕ :=
  ExtTreeSet.ofList ((plan.toList.filter fun entry => entry.2 = maxU64).map Prod.fst) compare

end Root

/-! ### The first pass -/

namespace Candidate

/-- The generation of a candidate. -/
def generation (c : Candidate) : ℕ := c.2.2

/-- What is live in it. -/
def live (c : Candidate) : ℕ := c.2.1

end Candidate

/-- What a plan moves out of a generation with so many live entities. -/
def cost (plan : BTreeMap ℕ) (generation live : ℕ) : ℕ :=
  min ((plan[generation]?).getD 0) live

section Drain

variable {maxGenerations slots budget : ℕ} {plan : BTreeMap ℕ} {queue : List Candidate}

/-- Planning a generation leaves the ones behind it alone. -/
theorem insert_other {generation : ℕ} (h : generation ∉ queue.map Candidate.generation)
    (quota : ℕ) {c : Candidate} (hc : c ∈ queue) :
    (plan.insert generation quota)[c.generation]? = plan[c.generation]? := by
  rw [ExtTreeMap.getElem?_insert, if_neg]
  exact fun heq => h (List.mem_map.mpr ⟨c, hc, (LawfulEqOrd.eq_of_compare heq).symm⟩)

/-- The first pass decides about the generations of the queue only. -/
theorem drain_other {g : ℕ} (hg : g ∉ queue.map Candidate.generation) :
    (drain maxGenerations queue slots budget plan).1[g]? = plan[g]? := by
  induction queue generalizing slots budget plan with
  | nil => rfl
  | cons c queue ih =>
    obtain ⟨dense, live, generation⟩ := c
    rw [List.map_cons, List.mem_cons, not_or] at hg
    obtain ⟨hne, hg⟩ := hg
    have hinsert (quota : ℕ) : (plan.insert generation quota)[g]? = plan[g]? := by
      rw [ExtTreeMap.getElem?_insert, if_neg]
      exact fun heq => hne (LawfulEqOrd.eq_of_compare heq).symm
    rw [drain]
    split
    · rfl
    · split
      · exact hinsert _
      · rw [ih hg, hinsert]

/-- What was planned before the rest of the queue stays planned. -/
theorem drain_insert {generation quota : ℕ} (h : generation ∉ queue.map Candidate.generation) :
    (drain maxGenerations queue slots budget (plan.insert generation quota)).1[generation]? =
      some quota := by
  rw [drain_other h, ExtTreeMap.getElem?_insert_self]

/-- **The first pass counts the slots**: one less for every generation that is drained whole. -/
theorem drain_slots (hnodup : (queue.map Candidate.generation).Nodup)
    (hfresh : ∀ c ∈ queue, plan[c.generation]? = none) (hlive : ∀ c ∈ queue, c.live ≤ maxU64)
    (hlen : queue.length ≤ slots) :
    (drain maxGenerations queue slots budget plan).2 + queue.countP (fun c =>
      (drain maxGenerations queue slots budget plan).1[c.generation]? = some maxU64) = slots := by
  have hnone {plan : BTreeMap ℕ} {queue : List Candidate}
      (h : ∀ c ∈ queue, plan[c.generation]? ≠ some maxU64) :
      queue.countP (fun c => plan[c.generation]? = some maxU64) = 0 :=
    List.countP_eq_zero.mpr fun c hc => by rw [decide_eq_true_eq]; exact h c hc
  induction queue generalizing slots budget plan with
  | nil => rfl
  | cons c queue ih =>
    obtain ⟨dense, live, generation⟩ := c
    rw [List.map_cons, List.nodup_cons] at hnodup
    have hinsert (quota : ℕ) : ∀ c ∈ queue, (plan.insert generation quota)[c.generation]? = none :=
      fun c hc => (insert_other hnodup.1 quota hc).trans (hfresh c (List.mem_cons_of_mem _ hc))
    rw [drain]
    split
    · refine (congrArg (slots + ·) (hnone fun c hc => ?_)).trans (Nat.add_zero slots)
      rw [hfresh c hc]
      exact (Option.some_ne_none _).symm
    · split
      · next hbudget =>
        -- what is left of the budget is too little for the whole generation
        refine (congrArg (slots + ·) (hnone ?_)).trans (Nat.add_zero slots)
        refine List.forall_mem_cons.mpr ⟨fun heq => ?_, fun c hc => ?_⟩
        · have hself : (plan.insert generation budget)[generation]? = some budget :=
            ExtTreeMap.getElem?_insert_self
          have hmax : live ≤ maxU64 := hlive _ List.mem_cons_self
          exact (hbudget.trans_le hmax).ne (Option.some.inj (hself.symm.trans heq))
        · rw [hinsert _ c hc]
          exact (Option.some_ne_none _).symm
      · rw [List.length_cons] at hlen
        rw [List.countP_cons_of_pos (by rw [decide_eq_true_eq]; exact drain_insert hnodup.1),
          ← Nat.add_assoc, ih hnodup.2 (hinsert _)
            (fun c hc => hlive c (List.mem_cons_of_mem _ hc)) (by omega)]
        omega

/-- **The first pass keeps the budget.** -/
theorem drain_cost (hnodup : (queue.map Candidate.generation).Nodup)
    (hfresh : ∀ c ∈ queue, plan[c.generation]? = none) :
    (queue.map fun c => cost (drain maxGenerations queue slots budget plan).1 c.generation
      c.live).sum ≤ budget := by
  have hnone {plan : BTreeMap ℕ} {queue : List Candidate}
      (h : ∀ c ∈ queue, plan[c.generation]? = none) :
      (queue.map fun c => cost plan c.generation c.live).sum = 0 := by
    refine List.sum_eq_zero fun n hn => ?_
    obtain ⟨c, hc, rfl⟩ := List.mem_map.mp hn
    rw [cost, h c hc]
    exact Nat.zero_min _
  induction queue generalizing slots budget plan with
  | nil => exact Nat.zero_le _
  | cons c queue ih =>
    obtain ⟨dense, live, generation⟩ := c
    rw [List.map_cons, List.nodup_cons] at hnodup
    have hinsert (quota : ℕ) : ∀ c ∈ queue, (plan.insert generation quota)[c.generation]? = none :=
      fun c hc => (insert_other hnodup.1 quota hc).trans (hfresh c (List.mem_cons_of_mem _ hc))
    rw [drain]
    split
    · rw [hnone hfresh]
      exact Nat.zero_le _
    · split
      · rw [List.map_cons, List.sum_cons, hnone (hinsert _), Nat.add_zero]
        have hself : (plan.insert generation budget)[generation]? = some budget :=
          ExtTreeMap.getElem?_insert_self
        refine (Nat.min_le_left _ _).trans ?_
        rw [show (plan.insert generation budget)[Candidate.generation (dense, live, generation)]? =
          some budget from hself]
        exact le_rfl
      · next hbudget =>
        have hrest : (queue.map fun c => cost (drain maxGenerations queue (slots - 1)
            (budget - live) (plan.insert generation maxU64)).1 c.generation c.live).sum ≤
            budget - live := ih hnodup.2 (hinsert maxU64)
        have hself : cost (drain maxGenerations queue (slots - 1) (budget - live)
            (plan.insert generation maxU64)).1 generation live ≤ live := Nat.min_le_right _ _
        rw [List.map_cons, List.sum_cons]
        refine (Nat.add_le_add hself hrest).trans ?_
        omega

/-- **A budget that covers everything** drains until the manifest is short enough. -/
theorem drain_enough (hnodup : (queue.map Candidate.generation).Nodup)
    (hpos : ∀ c ∈ queue, c.live ≠ 0) (hbudget : (queue.map Candidate.live).sum ≤ budget) :
    (∀ c ∈ queue, (drain maxGenerations queue slots budget plan).1[c.generation]? = some maxU64) ∨
      (drain maxGenerations queue slots budget plan).2 ≤ maxGenerations := by
  induction queue generalizing slots budget plan with
  | nil => exact Or.inl (List.forall_mem_nil _)
  | cons c queue ih =>
    obtain ⟨dense, live, generation⟩ := c
    rw [List.map_cons, List.nodup_cons] at hnodup
    rw [List.map_cons, List.sum_cons] at hbudget
    have hzero : live ≠ 0 := hpos _ List.mem_cons_self
    replace hbudget : live + (queue.map Candidate.live).sum ≤ budget := hbudget
    rw [drain]
    split
    · next hstop =>
      rcases hstop with hspent | hshort
      · omega
      · exact Or.inr hshort.2
    · rw [if_neg (by omega)]
      have hrest := @ih (slots - 1) (budget - live) (plan.insert generation maxU64) hnodup.2
        (fun c hc => hpos c (List.mem_cons_of_mem _ hc)) (by omega)
      exact hrest.imp (fun hall => List.forall_mem_cons.mpr ⟨drain_insert hnodup.1, hall⟩) id

end Drain

/-! ### The second pass -/

section Fit

variable {slots g : ℕ} {plan : BTreeMap ℕ} {queue : List Candidate}

/-- The second pass changes quotas to whole generations only. -/
theorem fitSlots_get : (fitSlots queue slots plan)[g]? = plan[g]? ∨
    (fitSlots queue slots plan)[g]? = some maxU64 ∧ g ∈ queue.map Candidate.generation := by
  induction queue generalizing slots plan with
  | nil => exact Or.inl rfl
  | cons c queue ih =>
    obtain ⟨dense, live, generation⟩ := c
    rw [fitSlots]
    split
    · exact Or.inl rfl
    · rcases @ih (if plan[generation]? = some maxU64 then slots else slots - 1)
        (plan.insert generation maxU64) with hsame | ⟨hwhole, hmem⟩
      · rw [hsame, ExtTreeMap.getElem?_insert]
        split
        · next heq =>
          exact Or.inr ⟨rfl, List.mem_cons.mpr (Or.inl (LawfulEqOrd.eq_of_compare heq).symm)⟩
        · exact Or.inl rfl
      · exact Or.inr ⟨hwhole, List.mem_cons_of_mem _ hmem⟩

/-- What was to be drained whole still is. -/
theorem fitSlots_whole (h : plan[g]? = some maxU64) :
    (fitSlots queue slots plan)[g]? = some maxU64 := by
  rcases @fitSlots_get slots g plan queue with hsame | ⟨hwhole, -⟩
  · exact hsame.trans h
  · exact hwhole

/-- Where the manifest fits already nothing is changed. -/
theorem fitSlots_of_lt (h : slots < maxSlots) : fitSlots queue slots plan = plan := by
  cases queue with
  | nil => rfl
  | cons c queue => exact if_pos h

/-- **The second pass makes the manifest fit.** -/
theorem fitSlots_spec (hnodup : (queue.map Candidate.generation).Nodup)
    (hslots : slots = queue.countP (fun c => plan[c.generation]? ≠ some maxU64) + 1) :
    queue.countP (fun c => (fitSlots queue slots plan)[c.generation]? ≠ some maxU64) + 1 ≤ slots ∧
      queue.countP (fun c => (fitSlots queue slots plan)[c.generation]? ≠ some maxU64) + 1 <
        maxSlots := by
  induction queue generalizing slots plan with
  | nil => exact ⟨hslots.ge, by rw [List.countP_nil]; decide⟩
  | cons c queue ih =>
    obtain ⟨dense, live, generation⟩ := c
    rw [List.map_cons, List.nodup_cons] at hnodup
    replace hnodup : generation ∉ queue.map Candidate.generation ∧ _ := hnodup
    by_cases hfits : slots < maxSlots
    · rw [fitSlots_of_lt hfits]
      exact ⟨hslots.ge, hslots ▸ hfits⟩
    have hrest : queue.countP (fun c =>
        (plan.insert generation maxU64)[c.generation]? ≠ some maxU64) =
        queue.countP (fun c => plan[c.generation]? ≠ some maxU64) :=
      List.countP_congr fun c hc => by rw [insert_other hnodup.1 _ hc]
    have hslots' : (if plan[generation]? = some maxU64 then slots else slots - 1) =
        queue.countP
          (fun c => (plan.insert generation maxU64)[c.generation]? ≠ some maxU64) + 1 := by
      rw [hrest]
      split
      · next hwhole =>
        rw [hslots, List.countP_cons_of_neg]
        rw [decide_eq_true_eq, not_not]
        exact hwhole
      · next hwhole =>
        rw [hslots, List.countP_cons_of_pos (by rw [decide_eq_true_eq]; exact hwhole)]
        rfl
    have hself : (fitSlots queue (if plan[generation]? = some maxU64 then slots else slots - 1)
        (plan.insert generation maxU64))[generation]? = some maxU64 :=
      fitSlots_whole ExtTreeMap.getElem?_insert_self
    obtain ⟨hle, hlt⟩ := ih hnodup.2 hslots'
    rw [fitSlots, if_neg hfits, List.countP_cons_of_neg]
    · refine ⟨hle.trans ?_, hlt⟩
      split
      · exact le_rfl
      · exact Nat.sub_le _ _
    · rw [decide_eq_true_eq, not_not]
      exact hself

end Fit

/-! ### The manifest that follows -/

section Fold

variable {α : Type} {l : List α} {f : α → ℕ} {quota g : ℕ} {plan : BTreeMap ℕ}

theorem getElem?_foldl_insert : (l.foldl (fun plan a => plan.insert (f a) quota) plan)[g]? =
    if g ∈ l.map f then some quota else plan[g]? := by
  induction l generalizing plan with
  | nil => rfl
  | cons a l ih =>
    rw [List.foldl_cons, ih, ExtTreeMap.getElem?_insert, List.map_cons]
    by_cases hmem : g ∈ l.map f
    · rw [if_pos hmem, if_pos (List.mem_cons_of_mem _ hmem)]
    · rw [if_neg hmem]
      by_cases heq : f a = g
      · rw [if_pos (by rw [heq]; exact ReflOrd.compare_self), if_pos (heq ▸ List.mem_cons_self)]
      · rw [if_neg fun hcmp => heq (LawfulEqOrd.eq_of_compare hcmp), if_neg]
        exact fun hcons => (List.mem_cons.mp hcons).elim (fun h => heq h.symm) hmem

theorem size_foldl_insert (hnodup : (l.map f).Nodup) (hfresh : ∀ a ∈ l, f a ∉ plan) :
    (l.foldl (fun plan a => plan.insert (f a) quota) plan).size = plan.size + l.length := by
  induction l generalizing plan with
  | nil => rfl
  | cons a l ih =>
    obtain ⟨hnew, hfresh⟩ := List.forall_mem_cons.mp hfresh
    rw [List.map_cons, List.nodup_cons] at hnodup
    rw [List.foldl_cons, ih hnodup.2, ExtTreeMap.size_insert,
      if_neg fun h => hnew (ExtTreeMap.mem_iff_contains.mpr h), List.length_cons]
    · omega
    · intro b hb hmem
      rcases ExtTreeMap.mem_insert.mp hmem with heq | hmem
      · exact hnodup.1 (List.mem_map.mpr ⟨b, hb, (LawfulEqOrd.eq_of_compare heq).symm⟩)
      · exact hfresh b hb hmem

end Fold

section Collection

variable {sparse : Occupancy → Bool} {options : Options} {root : Root}

/-- The generations with something live in them, with their slots. -/
def Root.occupied (root : Root) : List (GenerationInfo × ℕ) :=
  root.generations.zipIdx.filter fun (_, slot) => root.live slot ≠ 0

theorem mem_occupied {entry : GenerationInfo × ℕ} : entry ∈ root.occupied ↔
    root.generations[entry.2]? = some entry.1 ∧ root.live entry.2 ≠ 0 := by
  rw [Root.occupied, List.mem_filter, List.mem_zipIdx_iff_getElem?, decide_eq_true_eq]

/-- The queue, in some order. -/
theorem queue_perm : (root.queue sparse).Perm (root.occupied.map fun (entry, slot) =>
    (! sparse (root.totals slot), root.live slot, entry.generation)) :=
  List.mergeSort_perm _ _

theorem map_generation_zipIdx : root.generations.zipIdx.map (fun entry => entry.1.generation) =
    root.generations.map GenerationInfo.generation := by
  rw [← List.zipIdx_map_fst 0 root.generations, List.map_map, List.zipIdx_map_fst]
  rfl

/-- A candidate stands for a generation with something live in it. -/
theorem mem_queue {c : Candidate} (hc : c ∈ root.queue sparse) : ∃ entry slot,
    root.generations[slot]? = some entry ∧ root.live slot ≠ 0 ∧ c.live = root.live slot ∧
      c.generation = entry.generation := by
  obtain ⟨⟨entry, slot⟩, hmem, rfl⟩ := List.mem_map.mp (queue_perm.mem_iff.mp hc)
  obtain ⟨hget, hlive⟩ := mem_occupied.mp hmem
  exact ⟨entry, slot, hget, hlive, rfl, rfl⟩

theorem contains_absorbed {plan : BTreeMap ℕ} {g : ℕ} :
    (Root.absorbed plan).contains g ↔ plan[g]? = some maxU64 := by
  rw [← ExtTreeSet.mem_iff_contains, Root.absorbed, SortedMap.mem_setOfList, List.mem_map]
  constructor
  · rintro ⟨⟨g, quota⟩, hmem, rfl⟩
    obtain ⟨hmem, hquota⟩ := List.mem_filter.mp hmem
    rw [← of_decide_eq_true hquota]
    exact ExtTreeMap.mem_toList_iff_getElem?_eq_some.mp hmem
  · intro hget
    exact ⟨(g, maxU64), List.mem_filter.mpr
      ⟨ExtTreeMap.mem_toList_iff_getElem?_eq_some.mpr hget, decide_eq_true rfl⟩, rfl⟩

/-- A sum over the queue is one over the generations. -/
theorem sum_queue (f : ℕ → ℕ → ℕ) (hzero : ∀ g, f g 0 = 0) :
    ((root.queue sparse).map fun c => f c.generation c.live).sum =
      (root.generations.zipIdx.map fun entry => f entry.1.generation (root.live entry.2)).sum := by
  have hfilter (l : List (GenerationInfo × ℕ)) :
      ((l.filter fun (_, slot) => root.live slot ≠ 0).map fun entry =>
        f entry.1.generation (root.live entry.2)).sum =
      (l.map fun entry => f entry.1.generation (root.live entry.2)).sum := by
    induction l with
    | nil => rfl
    | cons entry l ih =>
      by_cases hlive : root.live entry.2 = 0
      · rw [List.filter_cons_of_neg (by rw [decide_eq_true_eq, not_not]; exact hlive), ih,
          List.map_cons, List.sum_cons, hlive, hzero, Nat.zero_add]
      · rw [List.filter_cons_of_pos (by rw [decide_eq_true_eq]; exact hlive), List.map_cons,
          List.sum_cons, ih, List.map_cons, List.sum_cons]
  rw [(queue_perm.map _).sum_eq, List.map_map]
  exact hfilter root.generations.zipIdx

theorem live_le (hsum : (root.generations.zipIdx.map fun entry => root.live entry.2).sum ≤ maxU64)
    {entry : GenerationInfo} {slot : ℕ} (hget : root.generations[slot]? = some entry) :
    root.live slot ≤ maxU64 :=
  (List.le_sum_of_mem (List.mem_map.mpr
    ⟨(entry, slot), List.mem_zipIdx_iff_getElem?.mpr hget, rfl⟩)).trans hsum

section Distinct

variable (hdistinct : (root.generations.map GenerationInfo.generation).Nodup)

include hdistinct

theorem nodup_filter (p : GenerationInfo × ℕ → Bool) :
    ((root.generations.zipIdx.filter p).map fun entry => entry.1.generation).Nodup := by
  rw [← map_generation_zipIdx] at hdistinct
  exact (List.filter_sublist.map _).nodup hdistinct

theorem nodup_queue : ((root.queue sparse).map Candidate.generation).Nodup := by
  rw [(queue_perm.map Candidate.generation).nodup_iff, List.map_map]
  exact nodup_filter hdistinct _

/-- A generation is listed once. -/
theorem slot_unique {entry entry' : GenerationInfo} {slot slot' : ℕ}
    (hget : root.generations[slot]? = some entry) (hget' : root.generations[slot']? = some entry')
    (hsame : entry.generation = entry'.generation) : slot = slot' := by
  have hlt : slot < (root.generations.map GenerationInfo.generation).length := by
    rw [List.length_map]
    exact (List.getElem?_eq_some_iff.mp hget).1
  refine (List.getElem?_inj hlt hdistinct).mp ?_
  rw [List.getElem?_map, List.getElem?_map, hget, hget']
  exact congrArg some hsame

/-- What is planned from the start: the generations with nothing live in them. -/
theorem emptied_get {entry : GenerationInfo} {slot : ℕ}
    (hget : root.generations[slot]? = some entry) : root.emptied[entry.generation]? =
      if root.live slot = 0 then some maxU64 else none := by
  have hmem : entry.generation ∈ (root.generations.zipIdx.filter fun (_, slot) =>
      root.live slot = 0).map (fun entry => entry.1.generation) ↔ root.live slot = 0 := by
    rw [List.mem_map]
    constructor
    · rintro ⟨⟨entry', slot'⟩, hmem, hsame⟩
      obtain ⟨hzip, hzero⟩ := List.mem_filter.mp hmem
      have hget' := List.mem_zipIdx_iff_getElem?.mp hzip
      rw [slot_unique hdistinct hget hget' hsame.symm]
      exact of_decide_eq_true hzero
    · intro hzero
      exact ⟨(entry, slot), List.mem_filter.mpr ⟨List.mem_zipIdx_iff_getElem?.mpr hget,
        decide_eq_true hzero⟩, rfl⟩
  rw [Root.emptied, getElem?_foldl_insert, ExtTreeMap.getElem?_empty]
  split
  · next h => rw [if_pos (hmem.mp h)]
  · next h => rw [if_neg fun hzero => h (hmem.mpr hzero)]

theorem size_emptied : root.emptied.size + root.occupied.length = root.generations.length := by
  have hsize : root.emptied.size = (∅ : BTreeMap ℕ).size +
      (root.generations.zipIdx.filter fun entry => root.live entry.2 = 0).length :=
    size_foldl_insert (nodup_filter hdistinct _) fun _ _ => ExtTreeMap.not_mem_empty
  have hzip : root.generations.zipIdx.length = root.generations.length := List.length_zipIdx
  have hsplit := @List.length_eq_length_filter_add _ root.generations.zipIdx fun entry =>
    decide (root.live entry.2 = 0)
  have hoccupied : root.occupied =
      root.generations.zipIdx.filter fun entry => ! decide (root.live entry.2 = 0) := by
    rw [Root.occupied]
    congr 1
    funext entry
    exact decide_not
  rw [hsize, hoccupied, ExtTreeMap.size_empty, Nat.zero_add, ← hzip, hsplit]

theorem emptied_fresh : ∀ c ∈ root.queue sparse, root.emptied[c.generation]? = none := by
  intro c hc
  obtain ⟨entry, slot, hget, hlive, -, hgeneration⟩ := mem_queue hc
  rw [hgeneration, emptied_get hdistinct hget, if_neg hlive]

/-- **The slots the first pass counts** are those of the manifest, if it stayed with that. -/
theorem budgeted_slots (hbound : ∀ c ∈ root.queue sparse, c.live ≤ maxU64) :
    (root.budgeted sparse options).2 = (root.queue sparse).countP (fun c =>
      (root.budgeted sparse options).1[c.generation]? ≠ some maxU64) + 1 := by
  have hlen : (root.queue sparse).length = root.occupied.length := by
    rw [queue_perm.length_eq, List.length_map]
  have hsize := size_emptied hdistinct
  have hslots : (root.budgeted sparse options).2 + (root.queue sparse).countP (fun c =>
      (root.budgeted sparse options).1[c.generation]? = some maxU64) =
        root.generations.length - root.emptied.size + 1 :=
    drain_slots (nodup_queue hdistinct) (emptied_fresh hdistinct) hbound (by omega)
  have hsplit : (root.queue sparse).length =
      (root.queue sparse).countP (fun c =>
        (root.budgeted sparse options).1[c.generation]? = some maxU64) +
      (root.queue sparse).countP (fun c =>
        (root.budgeted sparse options).1[c.generation]? ≠ some maxU64) := by
    rw [List.length_eq_countP_add_countP]
    congr 2
    funext c
    exact decide_eq_decide.mpr (not_congr decide_eq_true_iff)
  omega

/-- **The next manifest fits**, and it is as long as the first pass leaves it, or shorter. -/
theorem collectionPlan_slots (hbound : ∀ c ∈ root.queue sparse, c.live ≤ maxU64) :
    (root.queue sparse).countP (fun c =>
        (root.collectionPlan sparse options)[c.generation]? ≠ some maxU64) + 1 ≤
      (root.budgeted sparse options).2 ∧
    (root.queue sparse).countP (fun c =>
        (root.collectionPlan sparse options)[c.generation]? ≠ some maxU64) + 1 < maxSlots :=
  fitSlots_spec (nodup_queue hdistinct) (budgeted_slots hdistinct hbound)

/-- A generation with nothing live in it leaves the manifest. -/
theorem collectionPlan_emptied {entry : GenerationInfo} {slot : ℕ}
    (hget : root.generations[slot]? = some entry) (hlive : root.live slot = 0) :
    (root.collectionPlan sparse options)[entry.generation]? = some maxU64 := by
  have hnot : entry.generation ∉ (root.queue sparse).map Candidate.generation := by
    intro hmem
    obtain ⟨c, hc, hsame⟩ := List.mem_map.mp hmem
    obtain ⟨entry', slot', hget', hlive', -, hgeneration⟩ := mem_queue hc
    rw [slot_unique hdistinct hget hget' (hsame.symm.trans hgeneration)] at hlive
    exact hlive' hlive
  refine fitSlots_whole ?_
  rw [Root.budgeted, drain_other hnot, emptied_get hdistinct hget, if_pos hlive]

/-- **The generations that stay** are those of the queue that are not drained whole. -/
theorem length_kept : (keptGenerations (Root.absorbed (root.collectionPlan sparse options))
    root.generations).length = (root.queue sparse).countP fun c =>
      (root.collectionPlan sparse options)[c.generation]? ≠ some maxU64 := by
  rw [keptGenerations, ← List.countP_eq_length_filter, queue_perm.countP_eq, List.countP_map,
    Root.occupied, List.countP_filter]
  conv_lhs => rw [← List.zipIdx_map_fst 0 root.generations, List.countP_map]
  refine List.countP_congr fun entry hmem => ?_
  have hget := List.mem_zipIdx_iff_getElem?.mp hmem
  rw [Function.comp_apply, decide_eq_true_eq, contains_absorbed, Function.comp_apply,
    Bool.and_eq_true, decide_eq_true_eq, decide_eq_true_eq]
  constructor
  · intro hkept
    refine ⟨hkept, fun hlive => hkept (collectionPlan_emptied hdistinct hget hlive)⟩
  · rintro ⟨hkept, -⟩
    exact hkept

/-- **The next manifest.** Its generations fit its slots, and where nothing limits the copying
there are no more of them than the options allow. -/
theorem rebuildSlots_collectionPlan
    (hsum : (root.generations.zipIdx.map fun entry => root.live entry.2).sum ≤ maxU64)
    (hvalid : 2 ≤ options.maxGenerations) (generation lsn : ℕ) :
    ∃ generations slots, root.rebuildSlots (Root.absorbed (root.collectionPlan sparse options))
        generation lsn = .ok (generations, slots) ∧ generations.length < maxSlots ∧
      (options.collectEntities = 0 → generations.length ≤ options.maxGenerations) := by
  have hbound : ∀ c ∈ root.queue sparse, c.live ≤ maxU64 := by
    intro c hc
    obtain ⟨entry, slot, hget, -, hlive, -⟩ := mem_queue hc
    rw [hlive]
    exact live_le hsum hget
  obtain ⟨hle, hlt⟩ := @collectionPlan_slots sparse options root hdistinct hbound
  have hslots := @budgeted_slots sparse options root hdistinct hbound
  have hlen : (keptGenerations (Root.absorbed (root.collectionPlan sparse options))
      root.generations ++ [(⟨generation, lsn⟩ : GenerationInfo)]).length =
      (root.queue sparse).countP (fun c =>
        (root.collectionPlan sparse options)[c.generation]? ≠ some maxU64) + 1 := by
    rw [List.length_append, length_kept hdistinct, List.length_singleton]
  refine ⟨_, _, if_neg (by omega), by omega, fun hzero => ?_⟩
  rw [hlen]
  refine hle.trans ?_
  -- the budget covers everything there is
  have hcovered : ((root.queue sparse).map Candidate.live).sum ≤
      if options.collectEntities = 0 then maxU64 else options.collectEntities := by
    rw [if_pos hzero]
    exact (sum_queue (fun _ live => live) fun _ => rfl).trans_le hsum
  have hpos : ∀ c ∈ root.queue sparse, c.live ≠ 0 := by
    intro c hc
    obtain ⟨entry, slot, -, hpos, hlive, -⟩ := mem_queue hc
    rwa [hlive]
  rcases drain_enough (nodup_queue hdistinct) hpos hcovered with hall | hshort
  · have hnone : (root.queue sparse).countP (fun c =>
        (root.budgeted sparse options).1[c.generation]? ≠ some maxU64) = 0 :=
      List.countP_eq_zero.mpr fun c hc => by
        rw [decide_eq_true_eq, not_not]
        exact hall c hc
    omega
  · exact hshort

/-- **The plan keeps the budget**, unless the manifest had to be made to fit. -/
theorem cost_collectionPlan (hlimit : options.collectEntities ≠ 0)
    (hfits : (root.budgeted sparse options).2 < maxSlots) :
    (root.generations.zipIdx.map fun entry => cost (root.collectionPlan sparse options)
      entry.1.generation (root.live entry.2)).sum ≤ options.collectEntities := by
  have hplan : root.collectionPlan sparse options = (root.budgeted sparse options).1 :=
    fitSlots_of_lt hfits
  have hqueue := @sum_queue sparse root (cost (root.budgeted sparse options).1) fun _ =>
    Nat.min_zero _
  have hcost : ((root.queue sparse).map fun c => cost (root.budgeted sparse options).1
      c.generation c.live).sum ≤
        if options.collectEntities = 0 then maxU64 else options.collectEntities :=
    drain_cost (nodup_queue hdistinct) (emptied_fresh hdistinct)
  rw [if_neg hlimit] at hcost
  rw [hplan, ← hqueue]
  exact hcost

end Distinct

end Collection

end EveDB
