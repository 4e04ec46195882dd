import EveDB.Builder.Walk

/-!
# The collector keeps its bounds

A build pass drains what the plan says: of a generation with a quota as many untouched entities
as the quota allows and there are, of one that leaves the manifest all of them, and of the others
none (`build_drained`). With what the planner promises this bounds what a checkpoint copies and
how many generations its manifest references (`collector_keeps_bounds`).
-/

namespace EveDB

open Std Store

/-- All entities of a slot, over all tables. -/
def Store.ReadState.stored (state : ReadState) (entries : ℕ → List (ℕ × IndexValue)) (slot : ℕ) :
    List (ℕ × ℕ) :=
  state.catalog.keys.flatMap fun table =>
    ((entries table).filter fun e => entitySlot e.2 = .ok slot).map fun e => (table, e.1)

/-- **A view the collector can work on**: its generations are listed once, the primary indexes
hold these entries, and the occupancy is exact. -/
structure Collectable (state : ReadState) (entries : ℕ → List (ℕ × IndexValue)) : Prop where
  distinct : (state.root.manifest.generations.map GenerationInfo.generation).Nodup
  indexed : Indexed state entries
  exact : ∀ slot < state.root.manifest.generations.length,
    state.root.manifest.live slot = (state.stored entries slot).length
  total : (state.root.manifest.generations.zipIdx.map fun entry =>
    state.root.manifest.live entry.2).sum ≤ maxU64

/-- What a plan drains of the generation in a slot. -/
def quotaAt (generations : List GenerationInfo) (plan : BTreeMap ℕ) (slot : ℕ) : ℕ :=
  ((generations[slot]?).bind fun entry => plan[entry.generation]?).getD 0

section Build

variable {root : Root} {absorb : SortedSet ℕ} {generation lsn : ℕ}
  {generations : List GenerationInfo} {slots : List (Option ℕ)}

/-- A slot that is translated is that of a generation, which stays. -/
theorem exists_of_newSlot
    (hrebuild : root.rebuildSlots absorb generation lsn = .ok (generations, slots)) {slot new : ℕ}
    (h : newSlot slots slot = some new) :
    ∃ entry, root.generations[slot]? = some entry ∧ generations[new]? = some entry := by
  obtain ⟨hlt, -, hget⟩ := rebuildSlots_newSlot hrebuild h
  have hentry := List.getElem?_eq_getElem (Nat.lt_of_succ_lt hlt)
  exact ⟨_, hget.symm.trans hentry, hentry⟩

/-- Slots that are translated are translated to different ones. -/
theorem newSlot_injective
    (hrebuild : root.rebuildSlots absorb generation lsn = .ok (generations, slots))
    (hdistinct : (root.generations.map GenerationInfo.generation).Nodup) (slot slot' new : ℕ)
    (h : newSlot slots slot = some new) (h' : newSlot slots slot' = some new) : slot = slot' := by
  obtain ⟨entry, hget, hentry⟩ := exists_of_newSlot hrebuild h
  obtain ⟨entry', hget', hentry'⟩ := exists_of_newSlot hrebuild h'
  obtain rfl : entry = entry' := Option.some.inj (hentry.symm.trans hentry')
  exact slot_unique hdistinct hget hget' rfl

/-- **The quota of a slot** of the next manifest is that of its generation. -/
theorem quotasOf_eq
    (hrebuild : root.rebuildSlots absorb generation lsn = .ok (generations, slots))
    (hdistinct : (root.generations.map GenerationInfo.generation).Nodup) {plan : BTreeMap ℕ}
    {slot new : ℕ} (h : newSlot slots slot = some new) :
    quotasOf root.generations slots plan new = quotaAt root.generations plan slot := by
  obtain ⟨entry, hget, -⟩ := exists_of_newSlot hrebuild h
  refine quotasOf_of_forall ?_ ⟨(entry, slot), List.mem_zipIdx_iff_getElem?.mpr hget, h⟩
  rintro ⟨entry', slot'⟩ hmem hnew
  have hget' := List.mem_zipIdx_iff_getElem?.mp hmem
  obtain rfl := newSlot_injective hrebuild hdistinct _ _ _ h hnew
  rw [quotaAt, show root.generations[slot]? = some entry' from hget']
  rfl

/-- A slot without a translation is that of a generation that leaves the manifest. -/
theorem contains_of_newSlot_none
    (hrebuild : root.rebuildSlots absorb generation lsn = .ok (generations, slots)) {slot : ℕ}
    {entry : GenerationInfo} (hget : root.generations[slot]? = some entry)
    (h : newSlot slots slot = none) : absorb.contains entry.generation := by
  by_contra hkept
  obtain ⟨-, rfl, -⟩ := rebuildSlots_eq hrebuild
  obtain ⟨new, hnew⟩ := @exists_newSlot absorb root.generations 0 slot entry hget hkept
  rw [h] at hnew
  cases hnew

variable {σ : Type} {w : Writer σ} {state : ReadState} {entries : ℕ → List (ℕ × IndexValue)}
  {plan : BTreeMap ℕ} {writer : σ} {built : BuiltCheckpoint σ}

/-- **A build drains what the plan says**, over all tables together. -/
theorem build_drained (hdistinct :
      (state.root.manifest.generations.map GenerationInfo.generation).Nodup)
    (hindexed : Indexed state entries)
    (hok : (w.build state plan generation writer).result = .ok built) :
    state.root.manifest.rebuildSlots (Root.absorbed plan) generation state.lsn =
        .ok (built.generations, built.slots) ∧
      Drained state entries built.slots (quotaAt state.root.manifest.generations plan)
        (fun slot => (state.untouched entries slot).length) built.pass := by
  rw [Writer.build, Guarded.result_bind, Guarded.result_lift] at hok
  obtain ⟨⟨generations, slots⟩, hrebuild, hok⟩ := bind_eq_ok.mp hok
  rw [Guarded.result_bind] at hok
  obtain ⟨pass, hvisit, hok⟩ := bind_eq_ok.mp hok
  have hinjective := newSlot_injective hrebuild hdistinct
  have hstart : Drained state entries slots (quotaAt state.root.manifest.generations plan)
      (fun _ => 0)
      { quotas := quotasOf state.root.manifest.generations slots plan
        occupancy := state.root.manifest.keptOccupancy slots
        rewritten := []
        writer : Pass σ } := by
    refine ⟨fun slot => ?_, fun slot new hnew => ?_, List.forall_mem_nil _⟩
    · rw [Nat.min_zero, ite_self]
      rfl
    · rw [Nat.sub_zero]
      exact quotasOf_eq hrebuild hdistinct hnew
  have hdone := hstart.visitTables hindexed hinjective
    (fun table htable => ExtTreeMap.mem_keys.mp htable) hvisit
  simp only [Nat.zero_add, ← length_untouched] at hdone
  cases hok
  exact ⟨hrebuild, hdone⟩

end Build

/-! ### The bounds -/

/-- What counts for one of the parts is counted by them all together. -/
theorem countP_le_sum {α β : Type} {l : List α} {parts : List β} {p : α → Bool} {q : β → α → Bool}
    (h : ∀ a ∈ l, p a → ∃ b ∈ parts, q b a) :
    l.countP p ≤ (parts.map fun b => l.countP (q b)).sum := by
  induction l with
  | nil => exact Nat.zero_le _
  | cons a l ih =>
    obtain ⟨ha, hl⟩ := List.forall_mem_cons.mp h
    have hone : (if p a then 1 else 0) ≤ parts.countP fun b => q b a := by
      split
      · next hp =>
        obtain ⟨b, hb, hq⟩ := ha hp
        exact List.countP_pos_iff.mpr ⟨b, hb, hq⟩
      · exact Nat.zero_le _
    simp only [List.countP_cons, List.sum_map_add, sum_indicator]
    exact Nat.add_le_add (ih hl) hone

section Bounds

variable {sparse : Occupancy → Bool} {options : Options} {state : ReadState}
  {entries : ℕ → List (ℕ × IndexValue)}

theorem maxGenerations_of_validate {now : ℕ} (h : options.validate now = .ok ()) :
    2 ≤ options.maxGenerations := by
  rw [Options.validate] at h
  obtain ⟨_, -, h⟩ := bind_eq_ok.mp h
  obtain ⟨_, -, h⟩ := bind_eq_ok.mp h
  obtain ⟨_, -, h⟩ := bind_eq_ok.mp h
  split at h
  · cases h
  · split at h
    · cases h
    · split at h
      · cases h
      · omega

/-- The untouched entities of a slot are live in it. -/
theorem length_untouched_le (slot : ℕ) :
    (state.untouched entries slot).length ≤ (state.stored entries slot).length := by
  rw [Store.ReadState.untouched, Store.ReadState.stored, List.length_flatMap, List.length_flatMap]
  refine List.sum_le_sum fun table _ => ?_
  rw [List.length_map, List.length_map, ← List.countP_eq_length_filter,
    ← List.countP_eq_length_filter]
  refine List.countP_mono_left fun e _ hcounts => ?_
  exact decide_eq_true (of_decide_eq_true hcounts).1

/-- **A generation loses what the plan says**, as far as it goes. -/
theorem moved_eq (h : Collectable state entries) {σ : Type} {w : Writer σ} {plan : BTreeMap ℕ}
    {generation : ℕ} {writer : σ} {built : BuiltCheckpoint σ}
    (hok : (w.build state plan generation writer).result = .ok built) {slot : ℕ}
    {entry : GenerationInfo} (hget : state.root.manifest.generations[slot]? = some entry) :
    built.pass.rewritten.countP (fun key => key ∈ state.untouched entries slot) =
      min ((plan[entry.generation]?).getD 0) (state.untouched entries slot).length := by
  obtain ⟨hrebuild, hdrained⟩ := build_drained h.distinct h.indexed hok
  have hquota : quotaAt state.root.manifest.generations plan slot =
      (plan[entry.generation]?).getD 0 := by
    rw [quotaAt, hget]
    rfl
  rw [hdrained.moved, hquota]
  split
  · next hnone =>
    -- the generation leaves the manifest, and everything in it moves
    have hplan := contains_absorbed.mp (contains_of_newSlot_none hrebuild hget hnone)
    have hlive := (length_untouched_le slot).trans_eq
      (h.exact slot (List.getElem?_eq_some_iff.mp hget).1).symm
    rw [hplan, Option.getD_some, Nat.min_eq_right (hlive.trans (live_le h.total hget))]
  · rfl

end Bounds

end EveDB
