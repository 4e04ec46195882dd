import EveDB.Running.Sound

/-!
# The counters of a running database

Whatever a shared database does, the counters of its manifest stay exact: they are what a build
makes of the counters of the manifest before, and that one is still exact when the build begins,
since no file that it needs has been swept away and no table that it has is missing from the view
that was captured (`Running.Reachable.sound`).

So what the collector takes for dead is dead (`Running.occupancy_exact`).
-/

namespace EveDB

open Std Store Index

namespace Running

variable {storage : Storage} {s : Running}

/-- The manifests that are in use. -/
inductive Uses (s : Running) : Checkpoint → Prop
  | current : Uses s s.database.state.root
  | pinned {view : ReadState} (hview : view ∈ s.views) : Uses s view.root
  | built {job : Store.CheckpointJob} {root : Checkpoint} (hwork : s.work = .installing job root) :
      Uses s root

/-- Whatever is in use is grounded. -/
theorem Sound.uses (h : s.Sound) {root : Checkpoint} (huses : s.Uses root) :
    root.Grounded s.disk := by
  cases huses with
  | current => exact h.grounded
  | pinned hview => exact (h.views _ hview).2.root.grounded
  | built hwork =>
    have hworking := h.working
    rw [hwork] at hworking
    exact hworking.2.grounded

/-- **The occupancy of generations is exact.** Whatever a shared database has gone through, in any
order (pins, group commits, captures, builds by any plan that succeed, fail or are given up,
installations, cleanups, and the end of the process at any moment), in each manifest that is in use
the counters of a table and a slot say how many entities the primary index of the table finds there:
as many as have been written, but for those that are dead. -/
theorem occupancy_exact (h : Reachable storage s) {root : Checkpoint} (huses : s.Uses root)
    (table : ℕ) : ∃ entries : List (ℕ × IndexValue),
      (table ∈ root.manifest.catalog → ∀ lower upper,
        root.files.scanIndex table 3 (lower, 0) (upper, maxU64) =
          (entries.filter fun e => lower ≤ e.1 ∧ e.1 ≤ upper).map fun e => .ok ((e.1, 0), e.2)) ∧
      (table ∉ root.manifest.catalog → entries = []) ∧
      (entries.map Prod.fst).Pairwise (· < ·) ∧
      ∀ slot, (tally root.manifest.occupancy table slot).entities =
        (tally root.manifest.occupancy table slot).dead +
          entries.countP fun e => names slot e.2 := by
  obtain ⟨held, hheld, hexact, hsame, -⟩ := (h.sound.uses huses).exact_held
  obtain ⟨listed, hindexed, -, -, hcount⟩ :=
    @Root.Exact.indexed held s.disk ⟨root, root.manifest.catalog, ∅, 0⟩ hexact hheld hsame
  exact ⟨(listed table).map byId, hindexed.scan table, hindexed.absent table,
    hindexed.ascending table, hcount table⟩

/-- An item is there in the checkpoint that a view is pinned on, and in the one behind it. -/
theorem occupancy_exact_pinned : ∃ (s : Running) (view : ReadState), Reachable Storage.vast s ∧
    view ∈ s.views ∧
    view.root.manifest.generation < s.database.state.root.manifest.generation ∧
    ∀ root ∈ [view.root, s.database.state.root], ∃ entries : List (ℕ × IndexValue),
      (entries.map Prod.fst).Pairwise (· < ·) ∧
      (tally root.manifest.occupancy 1 0).entities = 1 ∧
      1 = (tally root.manifest.occupancy 1 0).dead + entries.countP fun e => names 0 e.2 := by
  obtain ⟨s, previous, state, view, h, -, -, hview, haged⟩ := exists_replaced
  refine ⟨s, view, h, hview, haged.older, fun root hroot => ?_⟩
  obtain ⟨huses, hone⟩ : s.Uses root ∧ (tally root.manifest.occupancy 1 0).entities = 1 := by
    rcases List.mem_pair.mp hroot with rfl | rfl
    · exact ⟨.pinned hview, haged.item⟩
    · exact ⟨.current, haged.kept⟩
  obtain ⟨entries, -, -, hascending, hcount⟩ := occupancy_exact h huses 1
  exact ⟨entries, hascending, hone, hone.symm.trans (hcount 0)⟩

end Running

end EveDB
