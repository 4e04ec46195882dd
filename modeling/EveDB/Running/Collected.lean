import EveDB.Running.Sound

/-!
# What the collector works on

A plan is made from the counters of a manifest and carried out on a view that has been captured.
What is said about the collector supposes that the counters are those of the primary indexes
(`Collectable`). In a running database they are, for the current view and for one that has been
captured (`Running.collectable`), so each generation loses as many entities as the plan says
(`Running.collects`).
-/

namespace EveDB

open Std Store

/-! ### Totals -/

section Totals

variable {root : Root} {slot : ℕ}

/-- Entities and dead ones are added up on their own. -/
theorem foldl_totals (l : List ((ℕ × ℕ) × Occupancy)) (total : Occupancy) :
    l.foldl (fun total entry => if entry.1.2 = slot then
      ⟨total.entities + entry.2.entities, total.dead + entry.2.dead⟩ else total) total =
    ⟨total.entities + ((l.filter (·.1.2 = slot)).map (·.2.entities)).sum,
      total.dead + ((l.filter (·.1.2 = slot)).map (·.2.dead)).sum⟩ := by
  induction l generalizing total with
  | nil => rfl
  | cons entry l ih =>
    rw [List.foldl_cons, ih]
    by_cases hslot : entry.1.2 = slot
    · have hfilter : (entry :: l).filter (·.1.2 = slot) = entry :: l.filter (·.1.2 = slot) :=
        List.filter_cons_of_pos (decide_eq_true hslot)
      simp only [hfilter, if_pos hslot, List.map_cons, List.sum_cons, Nat.add_assoc]
    · have hfilter : (entry :: l).filter (·.1.2 = slot) = l.filter (·.1.2 = slot) :=
        List.filter_cons_of_neg fun h => hslot (of_decide_eq_true h)
      simp only [hfilter, if_neg hslot]

/-- Where there is no counter, nothing is added. -/
theorem sum_filterMap {α β : Type} (f : α → Option β) (g : β → ℕ) (l : List α) :
    ((l.filterMap f).map g).sum = (l.map fun a => ((f a).map g).getD 0).sum := by
  induction l with
  | nil => rfl
  | cons a l ih =>
    cases hf : f a with
    | none =>
      rw [List.filterMap_cons_none hf, ih, List.map_cons, List.sum_cons, hf, Option.map_none,
        Option.getD_none, Nat.zero_add]
    | some b => rw [List.filterMap_cons_some hf, List.map_cons, List.sum_cons, ih, List.map_cons,
        List.sum_cons, hf, Option.map_some, Option.getD_some]

/-- The counters of a slot, in any order of the tables. -/
theorem perm_counters {tables : List ℕ} (hnodup : tables.Nodup)
    (hknown : ∀ key ∈ root.occupancy, key.1 ∈ tables) :
    (root.occupancy.toList.filter (·.1.2 = slot)).Perm
      (tables.filterMap fun table =>
        (root.occupancy[(table, slot)]?).map fun count => ((table, slot), count)) := by
  refine (List.perm_ext_iff_of_nodup ((SortedMap.nodup_toList _).filter _) ?_).mpr ?_
  · refine hnodup.filterMap fun table table' entry h h' => ?_
    obtain ⟨_, -, rfl⟩ := Option.map_eq_some_iff.mp h
    obtain ⟨_, -, hsame⟩ := Option.map_eq_some_iff.mp h'
    exact (congrArg (fun entry => entry.1.1) hsame).symm
  · rintro ⟨⟨table, slot'⟩, count⟩
    rw [List.mem_filter, ExtTreeMap.mem_toList_iff_getElem?_eq_some, List.mem_filterMap]
    constructor
    · rintro ⟨hcount, hslot⟩
      obtain rfl : slot' = slot := of_decide_eq_true hslot
      have hmem := ExtTreeMap.mem_iff_isSome_getElem?.mpr (Option.isSome_of_eq_some hcount)
      exact ⟨table, hknown _ hmem, by rw [hcount]; rfl⟩
    · rintro ⟨table', -, hentry⟩
      obtain ⟨count', hcount, heq⟩ := Option.map_eq_some_iff.mp hentry
      cases heq
      exact ⟨hcount, decide_eq_true rfl⟩

/-- **What a slot holds** are the counters of the tables. -/
theorem Root.totals_eq {tables : List ℕ} (hnodup : tables.Nodup)
    (hknown : ∀ key ∈ root.occupancy, key.1 ∈ tables) :
    root.totals slot =
      ⟨(tables.map fun table => (tally root.occupancy table slot).entities).sum,
        (tables.map fun table => (tally root.occupancy table slot).dead).sum⟩ := by
  have hsum (g : Occupancy → ℕ) (hzero : g ⟨0, 0⟩ = 0) :
      ((root.occupancy.toList.filter (·.1.2 = slot)).map fun entry => g entry.2).sum =
        (tables.map fun table => g (tally root.occupancy table slot)).sum := by
    rw [((perm_counters hnodup hknown).map _).sum_eq, sum_filterMap]
    refine congrArg List.sum (List.map_congr_left fun table _ => ?_)
    rw [tally]
    cases root.occupancy[(table, slot)]? with
    | none => exact hzero.symm
    | some count => rfl
  rw [Root.totals, foldl_totals]
  simp only [Nat.zero_add]
  rw [hsum Occupancy.entities rfl, hsum Occupancy.dead rfl]

end Totals

/-- **A view on an exact manifest** is one the collector can work on. -/
theorem Root.Exact.exists_collectable {state : ReadState} {held disk : Disk}
    (h : state.root.manifest.Exact held) (hroot : state.root = .ofDisk held state.root.manifest)
    (hsame : state.root.manifest.SameIndexes held disk)
    (hcatalog : ∀ table ∈ state.root.manifest.catalog, table ∈ state.catalog)
    (htotal : (state.root.manifest.generations.zipIdx.map fun entry =>
      state.root.manifest.live entry.2).sum ≤ maxU64) :
    ∃ entries, Collectable state entries := by
  obtain ⟨listed, hindexed, -, -, hcount⟩ := h.indexed hroot hsame
  refine ⟨_, List.pairwise_map.mpr (h.ascending.imp Nat.ne_of_lt), hindexed, fun slot hslot => ?_,
    htotal⟩
  have hknown : ∀ key ∈ state.root.manifest.occupancy, key.1 ∈ state.catalog.keys := fun key hkey =>
    ExtTreeMap.mem_keys.mpr (hcatalog _ (h.known key hkey).1)
  have hstored : (state.stored (fun table => (listed table).map byId) slot).length =
      (state.catalog.keys.map fun table =>
        ((listed table).map byId).countP fun e => names slot e.2).sum := by
    rw [Store.ReadState.stored, List.length_flatMap]
    refine congrArg List.sum (List.map_congr_left fun table _ => ?_)
    rw [List.length_map, List.countP_eq_length_filter]
    rfl
  rw [hstored, Root.live, Root.totals_eq ExtTreeMap.nodup_keys hknown]
  simp only [hcount, List.sum_map_add, Nat.add_sub_cancel_left]

namespace Running

variable {storage : Storage} {s : Running}

/-- The views that a plan is carried out on: the one a checkpoint can be captured from, and one that
has been captured. -/
inductive Collects (s : Running) : ReadState → Prop
  | current : Collects s s.database.state
  | captured {job : Store.CheckpointJob} (hwork : s.work = .building job) : Collects s job.state

/-- **The collector's counters are those of the indexes**, whatever a shared database has gone
through, as long as there are not more live entities than can be counted. -/
theorem collectable (h : Reachable storage s) {view : ReadState} (hview : s.Collects view)
    (htotal : (view.root.manifest.generations.zipIdx.map fun entry =>
      view.root.manifest.live entry.2).sum ≤ maxU64) :
    ∃ entries, Collectable view entries := by
  have hsound := h.sound
  cases hview with
  | current =>
    obtain ⟨held, hheld, hexact, hsame, -⟩ := hsound.grounded.exact_held
    exact hexact.exists_collectable hheld hsame hsound.catalog htotal
  | captured hwork =>
    have hcaptured := hsound.working
    rw [hwork] at hcaptured
    obtain ⟨held, hheld, hexact, hsame, -⟩ := hcaptured.rests.root.grounded.exact_held
    exact hexact.exists_collectable hheld hsame hcaptured.older htotal

/-- **A build moves what its plan says** out of each generation: so many of the entities that no
transaction has touched, or all there are. -/
theorem collects (h : Reachable storage s) {job : Store.CheckpointJob}
    (hwork : s.work = .building job)
    (htotal : (job.state.root.manifest.generations.zipIdx.map fun entry =>
      job.state.root.manifest.live entry.2).sum ≤ maxU64)
    {built : BuiltCheckpoint Progress} (hok : (job.pass storage s.disk).result = .ok built) :
    ∃ entries, Indexed job.state entries ∧ ∀ slot entry,
      job.state.root.manifest.generations[slot]? = some entry →
      built.pass.rewritten.countP (fun key => key ∈ job.state.untouched entries slot) =
        min ((job.plan[entry.generation]?).getD 0) (job.state.untouched entries slot).length := by
  obtain ⟨entries, hcollectable⟩ := collectable h (.captured hwork) htotal
  rw [Store.CheckpointJob.pass, Guarded.result_bind] at hok
  obtain ⟨_, -, hbuild⟩ := bind_eq_ok.mp hok
  exact ⟨entries, hcollectable.indexed, fun slot entry hget => moved_eq hcollectable hbuild hget⟩

end Running

end EveDB
