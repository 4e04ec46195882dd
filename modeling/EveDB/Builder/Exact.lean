import EveDB.Builder.Counted
import EveDB.Builder.Collection
import EveDB.Store.Bound

/-!
# Exact counters

A manifest counts, for each table and each slot, the entities that were written there and those
that have died since. In a manifest whose counters are exact (`Root.Exact`) what is left is how many
entries of the primary index of the table name the slot.

A build keeps this (`Store.CheckpointJob.build_exact`): its manifest is exact in the directory with
the files that were written, which are new ones.
-/

namespace EveDB

open Std Store Index Indexes FullTableWriter

/-- The records of an entry of a primary index lie in heap files that the manifest lists. -/
def Root.Records (root : Root) (table : ℕ) (value : IndexValue) : Prop :=
  ∀ slot, entitySlot value = .ok slot → ∃ g, root.generations[slot]? = some g ∧
    ∀ kind ∈ [0, 1], ⟨table, g.generation, kind, 0⟩ ∈ root.fileIds

/-- **A manifest whose counters are exact**, in a directory with its files. -/
structure Root.Exact (disk : Disk) (root : Root) : Prop where
  routes : ∀ route ∈ root.partitions, route.1 ∈ root.catalog
  files : ∀ (route : Route) (part : Partition), root.partitions[route]? = some part →
    ∃ info ∈ root.files, info.id = part.file
  ascending : root.generations.Pairwise fun g g' => g.generation < g'.generation
  newest : ∀ g ∈ root.generations, g.generation ≤ root.generation
  known : ∀ key ∈ root.occupancy, key.1 ∈ root.catalog ∧ key.2 < root.generations.length
  listed : ∀ table ∈ root.catalog, ∃ listed, Listed disk root table primaryIndex listed ∧
    (∀ slot, (tally root.occupancy table slot).entities =
      (tally root.occupancy table slot).dead + listed.countP fun e => names slot e.2) ∧
    ∀ e ∈ listed, root.Records table e.2

/-- A new database has nothing to count. -/
theorem Root.exact_empty (disk : Disk) : Root.empty.Exact disk where
  routes route hroute := absurd hroute ExtTreeMap.not_mem_empty
  files route part hpart := by
    rw [Root.empty, ExtTreeMap.getElem?_empty] at hpart
    cases hpart
  ascending := List.pairwise_singleton _ _
  newest := List.forall_mem_singleton.mpr le_rfl
  known key hkey := absurd hkey ExtTreeMap.not_mem_empty
  listed table htable := absurd htable ExtTreeMap.not_mem_empty

/-! ### What an exact manifest lists -/

section Exact

variable {disk disk' : Disk} {root : Root}

/-- The files of the primary indexes of a manifest are the same in two directories. -/
def Root.SameIndexes (root : Root) (disk disk' : Disk) : Prop :=
  ∀ (table : ℕ) (lower : Key) (part : Partition),
    root.partitions[((table, 3, lower) : Route)]? = some part → disk' part.file = disk part.file

theorem Root.SameIndexes.symm (h : root.SameIndexes disk disk') : root.SameIndexes disk' disk :=
  fun table lower part hpart => (h table lower part hpart).symm

/-- A manifest is exact in every directory with the files of its primary indexes. -/
theorem Root.Exact.of_sameIndexes (h : root.Exact disk) (hfiles : root.SameIndexes disk disk') :
    root.Exact disk' where
  routes := h.routes
  files := h.files
  ascending := h.ascending
  newest := h.newest
  known := h.known
  listed table htable := by
    obtain ⟨listed, hlisted, hrest⟩ := h.listed table htable
    refine ⟨listed, ⟨⟨hlisted.routed.ascending, fun lower part hpart => ?_, hlisted.routed.covered⟩,
      hlisted.fits, hlisted.primary⟩, hrest⟩
    exact (hlisted.routed.shows lower part hpart).of_file (hfiles table lower part hpart)

/-- **What the primary index of a table lists**, whether the manifest has the table or not. -/
theorem Root.Exact.exists_listed (h : root.Exact disk) (table : ℕ) :
    ∃ listed, Listed disk root table primaryIndex listed ∧ (table ∉ root.catalog → listed = []) ∧
      (∀ slot, (tally root.occupancy table slot).entities =
        (tally root.occupancy table slot).dead + listed.countP fun e => names slot e.2) ∧
      ∀ e ∈ listed, root.Records table e.2 := by
  by_cases htable : table ∈ root.catalog
  · obtain ⟨listed, hlisted, hrest⟩ := h.listed table htable
    exact ⟨listed, hlisted, fun hnot => absurd htable hnot, hrest⟩
  · refine ⟨[], ⟨⟨List.Pairwise.nil, fun lower part hpart => ?_, List.forall_mem_nil _⟩,
      List.forall_mem_nil _, fun _ => List.forall_mem_nil _⟩, fun _ => rfl, fun slot => ?_,
      List.forall_mem_nil _⟩
    · exact absurd (h.routes _ (ExtTreeMap.mem_iff_isSome_getElem?.mpr (by rw [hpart]; rfl))) htable
    · rw [tally, ExtTreeMap.getElem?_eq_none fun hmem => htable (h.known _ hmem).1]
      rfl

variable {listed : List Entry} {table : ℕ}

/-- A scan of the primary index returns what it lists. -/
theorem Listed.scanIndex (h : Listed disk root table primaryIndex listed) (lower upper : Key) :
    (Checkpoint.ofDisk disk root).files.scanIndex table 3 lower upper =
      (SortedList.range order (toLex lower) (toLex upper) listed).map .ok := by
  refine Scan.drain_eq (fun i => (h.routed.scanIndex lower upper i).trans ?_) ?_
  · rw [List.getElem?_map]
  · rw [List.length_map]
    exact (List.length_filter_le _ _).trans (length_le_keyCount h.routed.ascending h.fits)

/-- An entry of a primary index lies in the slot of a generation, which its partition lists. -/
theorem Root.Exact.slot_lt (h : root.Exact disk)
    (hcount : ∀ slot, (tally root.occupancy table slot).entities =
      (tally root.occupancy table slot).dead + listed.countP fun e => names slot e.2)
    {e : Entry} (he : e ∈ listed) {slot : ℕ} (hslot : entitySlot e.2 = .ok slot) :
    slot < root.generations.length := by
  have hpos : 0 < listed.countP fun e => names slot e.2 :=
    List.countP_pos_iff.mpr ⟨e, he, names_iff.mpr hslot⟩
  by_contra hlarge
  have hnone : tally root.occupancy table slot = ⟨0, 0⟩ := by
    rw [tally, ExtTreeMap.getElem?_eq_none fun hmem => hlarge (h.known _ hmem).2]
    rfl
  have heq := hcount slot
  rw [hnone] at heq
  dsimp only at heq
  omega

/-- **What there is of a primary index**, entity by entity. -/
theorem Listed.locate (h : Listed disk root table primaryIndex listed)
    (htable : table ∈ root.catalog) (id : ℕ) : (Checkpoint.ofDisk disk root).locate table id =
      .ok ((SortedList.lookup order (toLex (id, 0)) listed).map Prod.snd) := by
  have hcontains : (Checkpoint.ofDisk disk root).manifest.catalog.contains table = true :=
    ExtTreeMap.contains_iff_mem.mpr htable
  rw [Checkpoint.locate, if_neg (not_not.mpr hcontains)]
  have hlookup : (Checkpoint.ofDisk disk root).files.lookupIndex table 3 (id, 0) =
      .ok ((SortedList.lookup order (toLex (id, 0)) listed).map Prod.snd) :=
    h.routed.lookupIndex (id, 0)
  rw [hlookup, ok_bind]
  cases hfound : SortedList.lookup order (toLex (id, 0)) listed with
  | none => rfl
  | some e =>
    obtain ⟨-, slot, hslot⟩ := h.primary rfl e (h.routed.ascending.lookup_eq_some.mp hfound).1
    rw [Option.map_some]
    dsimp only
    rw [hslot]
    rfl

/-- **A checkpoint has the entities that are listed.** -/
theorem Listed.locate_iff (h : Listed disk root table primaryIndex listed)
    (habsent : table ∉ root.catalog → listed = []) {id : ℕ} {value : IndexValue} :
    (Checkpoint.ofDisk disk root).locate table id = .ok (some value) ↔
      ((id, 0), value) ∈ listed := by
  by_cases htable : table ∈ root.catalog
  · rw [h.locate htable]
    constructor
    · intro hlocate
      obtain ⟨e, hfound, rfl⟩ := Option.map_eq_some_iff.mp (Except.ok.inj hlocate)
      obtain ⟨hmem, hkey⟩ := h.routed.ascending.lookup_eq_some.mp hfound
      rwa [show ((id, 0), e.2) = e from Prod.ext (toLex_inj.mp hkey).symm rfl]
    · intro hmem
      have hfound : SortedList.lookup order (toLex (id, 0)) listed = some ((id, 0), value) :=
        h.routed.ascending.lookup_eq_some.mpr ⟨hmem, rfl⟩
      rw [hfound]
      rfl
  · have hcontains : ¬(Checkpoint.ofDisk disk root).manifest.catalog.contains table = true :=
      mt ExtTreeMap.contains_iff_mem.mp htable
    rw [habsent htable, Checkpoint.locate, if_pos hcontains]
    constructor
    · rintro ⟨⟩
    · rintro ⟨⟩

theorem Listed.has_iff (h : Listed disk root table primaryIndex listed)
    (habsent : table ∉ root.catalog → listed = []) (id : ℕ) :
    (Checkpoint.ofDisk disk root).Has (table, id) ↔ id ∈ idsOf listed := by
  constructor
  · rintro ⟨value, hvalue⟩
    exact ⟨_, (h.locate_iff habsent).mp hvalue, rfl⟩
  · rintro ⟨e, he, rfl⟩
    refine ⟨e.2, (h.locate_iff habsent).mpr ?_⟩
    rwa [show ((e.1.1, 0), e.2) = e from Prod.ext (Prod.ext rfl (h.primary rfl e he).1.symm) rfl]

end Exact

/-! ### Views of an exact manifest -/

/-- A bucket lies in itself. -/
theorem bucket_bucket (key : Key) : bucket 3 (bucket 3 key) = bucket 3 key := by
  have hwidth : 0 < width := Nat.succ_pos 1023
  simp only [bucket, if_true, Nat.mul_div_cancel _ hwidth]

section Views

variable {disk disk' : Disk} {state : ReadState}

/-- **A view of an exact manifest**: its primary indexes hold what is listed, and the counters say
how much of it is where. -/
theorem Root.Exact.indexed (h : state.root.manifest.Exact disk)
    (hroot : state.root = .ofDisk disk state.root.manifest)
    (hfiles : state.root.manifest.SameIndexes disk disk') :
    ∃ listed : ℕ → List Entry, Indexed state (fun table => (listed table).map byId) ∧
      (∀ table, Located disk' state table (listed table)) ∧
      (∀ table, Listed disk state.root.manifest table primaryIndex (listed table) ∧
        ∀ e ∈ listed table, state.root.manifest.Records table e.2) ∧
      ∀ table slot, (tally state.root.manifest.occupancy table slot).entities =
        (tally state.root.manifest.occupancy table slot).dead +
          ((listed table).map byId).countP fun e => names slot e.2 := by
  choose listed hlisted habsent hcount hrecords using h.exists_listed
  have hzero (table : ℕ) : ∀ e ∈ listed table, e.1.2 = 0 := fun e he =>
    ((hlisted table).primary rfl e he).1
  have hfirst {table : ℕ} {lower : Key} {part : Partition}
      (hpart : state.root.manifest.partitions[((table, 3, lower) : Route)]? = some part) :
      bucket 3 lower = lower := by
    have hshows : part.Shows disk 3 lower ((listed table).filter fun e => bucket 3 e.1 = lower) :=
      (hlisted table).routed.shows lower part hpart
    obtain ⟨e, he, -⟩ := Option.map_eq_some_iff.mp hshows.first
    obtain ⟨-, hbucket⟩ := List.mem_filter.mp (List.mem_of_mem_head? he)
    rw [← of_decide_eq_true hbucket, bucket_bucket]
  refine ⟨listed, ⟨fun table => ?_, fun table _ lower upper => ?_, fun table htable => ?_,
    fun table e he => ?_, fun table e he => ?_, fun route hroute hkind => ?_⟩, fun table => ?_,
    fun table => ⟨hlisted table, hrecords table⟩, fun table slot => ?_⟩
  · exact List.pairwise_map.mpr (ascending_byId (hzero table) (hlisted table).routed.ascending)
  · rw [hroot]
    refine ((hlisted table).scanIndex (lower, 0) (upper, maxU64)).trans ?_
    rw [← range_byId (hzero table), List.map_map]
    refine List.map_congr_left fun e he => ?_
    obtain ⟨⟨id, version⟩, value⟩ := e
    have hversion : version = 0 := hzero table _ (List.mem_of_mem_filter he)
    rw [hversion]
    rfl
  · rw [habsent table htable]
    rfl
  · obtain ⟨e', he', rfl⟩ := List.mem_map.mp he
    exact Nat.le_of_lt_succ ((hlisted table).fits e' he').1
  · obtain ⟨e', he', rfl⟩ := List.mem_map.mp he
    have hcovered := (hlisted table).routed.covered e' he'
    obtain ⟨part, hpart⟩ := Option.isSome_iff_exists.mp
      (ExtTreeMap.mem_iff_isSome_getElem?.mp hcovered)
    have hshows := (hlisted table).routed.shows _ part hpart
    obtain ⟨stored, slot, hstored, hslot⟩ :=
      Partition.Shows.slot_listed hshows (List.mem_filter.mpr ⟨he', decide_eq_true rfl⟩)
    refine ⟨slot, stored, part, hslot, h.slot_lt (hcount table) he' hslot, ?_,
      hstored⟩
    have hkey : e'.1 = (e'.1.1, 0) := Prod.ext rfl (hzero table e' he')
    rw [hkey] at hpart
    exact hpart
  · obtain ⟨part, hpart⟩ := Option.isSome_iff_exists.mp
      (ExtTreeMap.mem_iff_isSome_getElem?.mp hroute)
    have heq : route = (route.1, 3, route.2.2) := Prod.ext rfl (Prod.ext hkind rfl)
    rw [heq] at hpart
    exact (hfirst hpart).symm
  · have hlisted' := hlisted table
    refine ⟨⟨hlisted'.routed.ascending, fun lower part hpart => ?_, hlisted'.routed.covered⟩,
      hzero table, hlisted'.fits, fun lower part hpart => h.files _ part hpart⟩
    exact (hlisted'.routed.shows lower part hpart).of_file (hfiles table lower part hpart)
  · rw [List.countP_map]
    exact hcount table slot

end Views

/-! ### Building -/

section Build

variable {disk disk' : Disk} {storage : Storage} {job : Store.CheckpointJob}
    {failure : Option String}

/-- **What a build that succeeds has come to.** -/
theorem Store.CheckpointJob.build_eq_ok {next : Checkpoint}
    (hok : (job.build storage disk failure).result = .ok (next, disk')) :
    ∃ built, (job.pass storage disk).result = .ok built ∧
      disk' = disk.write built.pass.writer.written ∧
      next = .ofDisk disk' (job.manifest built) ∧ next.manifest.encode.length ≤ maxFrame := by
  rw [Store.CheckpointJob.build, Guarded.result_bind] at hok
  obtain ⟨built, hpass, hok⟩ := bind_eq_ok.mp hok
  rw [Guarded.result_bind] at hok
  obtain ⟨root, hfinish, hok⟩ := bind_eq_ok.mp hok
  cases hok
  refine ⟨built, hpass, rfl, ?_⟩
  obtain ⟨⟨⟩, -, hfinish⟩ := bind_eq_ok.mp hfinish
  obtain ⟨⟨⟩, -, hfinish⟩ := bind_eq_ok.mp hfinish
  obtain ⟨record, hrecord, hfinish⟩ := bind_eq_ok.mp hfinish
  cases failure with
  | none =>
    cases hfinish
    exact ⟨rfl, (Frame.encode_eq_ok (f := ⟨4, _, _⟩) hrecord).1⟩
  | some message => cases hfinish

/-- The generations of a build. -/
theorem Store.CheckpointJob.pass_eq_ok {built : BuiltCheckpoint Progress}
    (hok : (job.pass storage disk).result = .ok built) :
    ∃ rewriteIndexes : Bool,
      job.state.root.manifest.rebuildSlots (Root.absorbed job.plan) job.generation job.state.lsn =
        .ok (built.generations, built.slots) ∧
      ((tableWriter disk storage (job.tableOptions (built.generations.length - 1))
        job.options.limits.maxIndexPartitions).visitTables job.state built.slots rewriteIndexes
        (built.generations.length - 1) job.state.catalog.keys
        { quotas := quotasOf job.state.root.manifest.generations built.slots job.plan
          occupancy := job.state.root.manifest.keptOccupancy built.slots
          rewritten := []
          writer := job.start }).result = .ok built.pass := by
  rw [Store.CheckpointJob.pass, Guarded.result_bind] at hok
  obtain ⟨⟨generations, slots⟩, hrebuild, hok⟩ := bind_eq_ok.mp hok
  rw [Guarded.result_lift] at hrebuild
  dsimp only at hok
  rw [Writer.build, Guarded.result_bind, Guarded.result_lift, hrebuild, ok_bind,
    Guarded.result_bind] at hok
  obtain ⟨pass, hvisit, hok⟩ := bind_eq_ok.mp hok
  cases hok
  exact ⟨_, hrebuild, hvisit⟩

/-- **Where the slots go** in a build. -/
theorem translates_of_rebuildSlots {root : Root} {absorb : SortedSet ℕ} {generation lsn : ℕ}
    {generations : List GenerationInfo} {slots : List (Option ℕ)}
    (hascending : root.generations.Pairwise fun g g' => g.generation < g'.generation)
    (hrebuild : root.rebuildSlots absorb generation lsn = .ok (generations, slots)) :
    Translates slots (generations.length - 1) where
  below old new hnew := by
    have hlt := (rebuildSlots_newSlot hrebuild hnew).1
    omega
  injective := by
    refine newSlot_injective hrebuild ?_
    exact List.pairwise_map.mpr (hascending.imp fun hlt => hlt.ne)
  last_lt := (rebuildSlots_last hrebuild).1

/-- A generation that gets a new slot keeps its records. -/
theorem Root.mem_keptFiles {root : Root} {absorb : SortedSet ℕ} {generation lsn : ℕ}
    {generations : List GenerationInfo} {slots : List (Option ℕ)}
    (hrebuild : root.rebuildSlots absorb generation lsn = .ok (generations, slots)) {old new : ℕ}
    (hnew : newSlot slots old = some new) {g : GenerationInfo}
    (hg : root.generations[old]? = some g) {table kind : ℕ} (hkind : kind ∈ [0, 1])
    (hfile : ⟨table, g.generation, kind, 0⟩ ∈ root.fileIds) :
    generations[new]? = some g ∧
      ∃ info ∈ root.keptFiles absorb, info.id = ⟨table, g.generation, kind, 0⟩ := by
  obtain ⟨hlt, -, hsame⟩ := rebuildSlots_newSlot hrebuild hnew
  obtain ⟨hgenerations, -, -⟩ := rebuildSlots_eq hrebuild
  rw [hg] at hsame
  have hkept : g ∈ keptGenerations absorb root.generations := by
    rw [hgenerations, List.length_append, List.length_singleton] at hlt
    rw [hgenerations, List.getElem?_append_left (Nat.lt_of_succ_lt_succ hlt)] at hsame
    exact List.mem_of_getElem? hsame
  obtain ⟨info, hinfo, hid⟩ := List.mem_map.mp hfile
  refine ⟨hsame, info, List.mem_filter.mpr ⟨hinfo, decide_eq_true ⟨?_, ?_⟩⟩, hid⟩
  · rw [show info.kind = kind from congrArg FileId.kind hid]
    exact List.mem_pair.mp hkind
  · rw [show info.generation = g.generation from congrArg FileId.generation hid]
    exact of_decide_eq_true (List.mem_filter.mp hkept).2

/-- **The records of an entry are listed**, wherever it comes from. -/
theorem Origin.records {state : ReadState} {entries : List Entry} {absorb : SortedSet ℕ}
    {generation lsn table : ℕ} {generations : List GenerationInfo} {slots : List (Option ℕ)}
    {current base : ℕ → Bytes → Prop} {ids : List FileId} {e : Entry}
    (h : Origin state entries slots (generations.length - 1) table current base e)
    (hrebuild : state.root.manifest.rebuildSlots absorb generation lsn = .ok (generations, slots))
    (hlast : generations.length - 1 < 2 ^ 8)
    (hrecords : ∀ e ∈ entries, state.root.manifest.Records table e.2)
    (hstays : ∀ info ∈ state.root.manifest.keptFiles absorb, info.id ∈ ids)
    (hheaps : ∀ kind ∈ [0, 1], ⟨table, generation, kind, 0⟩ ∈ ids) (slot : ℕ)
    (hslot : entitySlot e.2 = .ok slot) :
    ∃ g, generations[slot]? = some g ∧ ∀ kind ∈ [0, 1], ⟨table, g.generation, kind, 0⟩ ∈ ids := by
  cases h with
  | @kept e old new hlisted hold hnew =>
    obtain ⟨g, hg, hfiles⟩ := hrecords e hlisted old hold
    have hsmall := (rebuildSlots_newSlot hrebuild hnew).2.1
    obtain rfl := Except.ok.inj (hslot.symm.trans (entitySlot_remap e.2 hsmall))
    refine ⟨g, (Root.mem_keptFiles hrebuild hnew hg (List.mem_cons_self) (hfiles 0 (by simp))).1,
      fun kind hkind => ?_⟩
    obtain ⟨-, info, hinfo, hid⟩ := Root.mem_keptFiles hrebuild hnew hg hkind (hfiles kind hkind)
    exact hid ▸ hstays info hinfo
  | anew hload hcurrentAt hbaseAt =>
    have heq := (entitySlot_eq_ok.mp hslot).1
    rw [splitLocator_locate hlast hcurrentAt] at heq
    obtain rfl : generations.length - 1 = slot := heq
    exact ⟨_, (rebuildSlots_last hrebuild).2, hheaps⟩

/-- **What a build comes to**: all tables of the view it was captured from, each with counters that
say what its primary index lists. -/
theorem Store.CheckpointJob.tabled {held : Disk} {here : FileInfo → Prop}
    {built : BuiltCheckpoint Progress} (h : job.state.root.manifest.Exact held)
    (hroot : job.state.root = .ofDisk held job.state.root.manifest)
    (hfiles : job.state.root.manifest.SameIndexes held disk) (hhere : job.state.Here here)
    (hlsn : job.state.lsn < 2 ^ 64) (hok : (job.pass storage disk).result = .ok built) :
    ∃ listed, job.state.root.manifest.rebuildSlots (Root.absorbed job.plan) job.generation
        job.state.lsn = .ok (built.generations, built.slots) ∧
      (∀ table, Listed held job.state.root.manifest table primaryIndex (listed table) ∧
        (table ∉ job.state.root.manifest.catalog → listed table = []) ∧
        ∀ e ∈ listed table, job.state.root.manifest.Records table e.2) ∧
      Tabled disk here job.state listed
        (job.tableOptions (built.generations.length - 1)) built.slots
        (built.generations.length - 1) (job.state.root.manifest.keptOccupancy built.slots)
        job.start.files job.state.catalog.keys built.pass := by
  obtain ⟨rewriteIndexes, hrebuild, hvisit⟩ := job.pass_eq_ok hok
  obtain ⟨listed, hindexed, hlocated, hlisted, hcount⟩ := h.indexed hroot hfiles
  have hslots := translates_of_rebuildSlots h.ascending hrebuild
  refine ⟨listed, hrebuild, fun table => ⟨(hlisted table).1, fun htable => ?_, (hlisted table).2⟩,
    ?_⟩
  · exact List.map_eq_nil_iff.mp (hindexed.absent table htable)
  have hstart : Tabled disk here job.state listed
      (job.tableOptions (built.generations.length - 1)) built.slots
      (built.generations.length - 1) (job.state.root.manifest.keptOccupancy built.slots)
      job.start.files []
      { quotas := quotasOf job.state.root.manifest.generations built.slots job.plan
        occupancy := job.state.root.manifest.keptOccupancy built.slots
        rewritten := []
        writer := job.start } := by
    refine ⟨rfl, fun route hroute => absurd hroute ExtTreeMap.not_mem_empty, ?_,
      fun info hinfo => ?_,
      fun _ h => h, List.forall_mem_nil _, List.nodup_nil, List.forall_mem_nil _, fun _ _ => rfl,
      fun _ hkey => Or.inl hkey,
      List.forall_mem_nil _⟩
    · intro route part hpart
      rw [Store.CheckpointJob.start, ExtTreeMap.getElem?_empty] at hpart
      cases hpart
    · exact Or.inl (hhere.root info (List.mem_of_mem_filter hinfo))
  have hnodup : job.state.catalog.keys.Nodup := ExtTreeMap.distinct_keys.imp fun hne heq =>
    hne (by rw [heq]; exact ReflOrd.compare_self)
  refine hstart.visitTables hindexed hlocated (fun _ => rfl) hrebuild
    hslots hhere hnodup rfl hlsn (fun table old new hnew => ?_) (fun key hkey => ?_) hvisit
  · rw [tally, getElem?_keptOccupancy hslots.injective hnew]
    exact hcount table old
  · obtain ⟨old, hnew, -⟩ := mem_keptOccupancy.mp hkey
    exact ⟨old, hnew⟩

/-- **A record of a heap file** in a directory. -/
def Disk.Record (disk : Disk) (file : FileId) (lsn location : ℕ) (bytes : Bytes) : Prop :=
  ∃ contents, disk file = some contents ∧
    HeapWriter.HasFile (UInt64.ofNat lsn) contents location bytes

/-- **A checkpoint that was built** from a captured view: its manifest is exact, all its files are
there, only files of its own were written, and it has the entities of the view. -/
structure Store.CheckpointJob.Built (job : Store.CheckpointJob) (held disk disk' : Disk)
    (next : Checkpoint) : Prop where
  counted : next.manifest.Exact disk'
  eq_ofDisk : next = .ofDisk disk' next.manifest
  generation_eq : next.manifest.generation = job.generation
  lsn_eq : next.manifest.lsn = job.state.lsn
  catalog_eq : next.manifest.catalog = job.state.catalog
  added : ∀ file, disk' file = disk file ∨ disk file = none ∧ file.generation = job.generation
  present : ∀ info ∈ next.manifest.files, (disk' info.id).isSome
  lists : ∃ (slots : List (Option ℕ)) (listed listed' : ℕ → List Entry),
    job.state.root.manifest.rebuildSlots (Root.absorbed job.plan) job.generation job.state.lsn =
      .ok (next.manifest.generations, slots) ∧
    (∀ table, Listed held job.state.root.manifest table primaryIndex (listed table) ∧
      (table ∉ job.state.root.manifest.catalog → listed table = []) ∧
      ∀ e ∈ listed table, job.state.root.manifest.Records table e.2) ∧
    ∀ table ∈ job.state.catalog, Listed disk' next.manifest table primaryIndex (listed' table) ∧
      (∀ id, id ∈ idsOf (listed' table) ↔
        id ∈ idsOf (listed table) ∨ (table, id) ∈ job.state.overlay ∧ id ≤ maxU64) ∧
      ∀ e ∈ listed' table, Origin job.state (listed table) slots
        (next.manifest.generations.length - 1) table
        (disk'.Record ⟨table, job.generation, 0, 0⟩ job.state.lsn)
        (disk'.Record ⟨table, job.generation, 1, 0⟩ job.state.lsn) e

/-- **A build keeps the counters exact**, and writes new files only. -/
theorem Store.CheckpointJob.build_exact {held : Disk} {next : Checkpoint}
    (h : job.state.root.manifest.Exact held)
    (hroot : job.state.root = .ofDisk held job.state.root.manifest)
    (hfiles : job.state.root.manifest.SameIndexes held disk)
    (hhere : job.state.Here fun info => (disk info.id).isSome)
    (hcatalog : ∀ table ∈ job.state.root.manifest.catalog, table ∈ job.state.catalog)
    (hlsn : job.state.lsn < 2 ^ 64)
    (hgeneration : job.state.root.manifest.generation < job.generation)
    (hok : (job.build storage disk failure).result = .ok (next, disk')) :
    job.Built held disk disk' next := by
  obtain ⟨built, hpass, rfl, rfl, -⟩ := job.build_eq_ok hok
  obtain ⟨listed, hrebuild, hlisted, htabled⟩ := job.tabled h hroot hfiles hhere hlsn hpass
  have hwritten (file : FileId) : disk.write built.pass.writer.written file = disk file ∨
      disk file = none ∧ file.generation = job.generation := by
    by_cases hmem : file ∈ built.pass.writer.written.map Prod.fst
    · obtain ⟨entry, hentry, rfl⟩ := List.mem_map.mp hmem
      obtain ⟨-, hgeneration, hnone, -⟩ := htabled.written entry hentry
      exact Or.inr ⟨hnone, hgeneration⟩
    · exact Or.inl (Disk.write_of_ne fun other hother heq =>
        hmem (List.mem_map.mpr ⟨other, hother, heq⟩))
  have hextends (file : FileId) (bytes : Bytes) (hfile : disk file = some bytes) :
      disk.write built.pass.writer.written file = some bytes := by
    rcases hwritten file with heq | ⟨hnone, -⟩
    · rw [heq, hfile]
    · rw [hnone] at hfile
      cases hfile
  obtain ⟨hgenerations, -, -⟩ := rebuildSlots_eq hrebuild
  have hslots := translates_of_rebuildSlots h.ascending hrebuild
  have hlength : 0 < built.generations.length := by
    rw [hgenerations, List.length_append]
    exact Nat.succ_pos _
  have holder : ∀ g ∈ job.state.root.manifest.generations, g.generation < job.generation :=
    fun g hg => (h.newest g hg).trans_lt hgeneration
  -- the primary index of a table, as it is in the directory behind the build
  have htable (table : ℕ) (htable : table ∈ job.state.catalog) : ∃ listed',
      Listed (disk.write built.pass.writer.written)
        (job.manifest built) table primaryIndex listed' ∧
      (∀ slot, (tally built.pass.occupancy table slot).entities =
        (tally built.pass.occupancy table slot).dead + listed'.countP fun e => names slot e.2) ∧
      (∀ id, id ∈ idsOf listed' ↔
        id ∈ idsOf (listed table) ∨ (table, id) ∈ job.state.overlay ∧ id ≤ maxU64) ∧
      ∀ e ∈ listed',
        Origin job.state (listed table) built.slots (built.generations.length - 1) table
        ((disk.write built.pass.writer.written).Record ⟨table, job.generation, 0, 0⟩ job.state.lsn)
        ((disk.write built.pass.writer.written).Record ⟨table, job.generation, 1, 0⟩
          job.state.lsn) e := by
    obtain ⟨ix, old, ds, _, n, hidle, rfl, htold, hroutes, hbuilt, hcount, hids, horigin⟩ :=
      htabled.complete table (ExtTreeMap.mem_keys.mpr htable)
    have hstored : ∀ file ∈ ix.built, disk.write built.pass.writer.written file.1 = some file.2 ∧
        file.2.length ≤ maxU64 := by
      intro file hfile
      have hmem := hbuilt file hfile
      obtain ⟨-, -, -, hlength⟩ := htabled.written file hmem
      exact ⟨Disk.write_of_mem htabled.nodup hmem, Nat.le_of_lt_succ (hlength.trans (by decide))⟩
    have hparts : ∀ route : Route, route.1 = ix.table →
        (job.manifest built).partitions[route]? = ix.parts[route]? := hroutes
    have hrouted := hidle.routed htold.ordered htold.sound hextends hstored hparts
    have hrecord (kind location : ℕ) (bytes : Bytes)
        (h : recordsIn built.pass.writer.written
          (job.tableOptions (built.generations.length - 1)) ix.table kind location bytes) :
        (disk.write built.pass.writer.written).Record ⟨ix.table, job.generation, kind, 0⟩
          job.state.lsn location bytes := by
      obtain ⟨file, hfile, hhas⟩ := h
      exact ⟨file, Disk.write_of_mem htabled.nodup hfile, hhas⟩
    refine ⟨shownBy disk ds, ⟨hrouted, htold.fits, fun _ e he => ⟨htold.zero e he, ?_⟩⟩, hcount,
      hids, fun e he => (horigin e he).mono (hrecord 0) (hrecord 1)⟩
    obtain ⟨slot, hslot, -⟩ := htold.slot e he
    exact ⟨slot, hslot⟩
  choose! listed' hlisted' hcount hids horigin using htable
  refine ⟨⟨fun route hroute => ?_, htabled.files, ?_, ?_, fun key hkey => ?_,
    fun table htable => ⟨listed' table, hlisted' table htable, hcount table htable, ?_⟩⟩,
    rfl, rfl, rfl, rfl, hwritten, fun info hinfo => ?_, built.slots, listed, listed',
    hrebuild, hlisted, fun table htable =>
      ⟨hlisted' table htable, hids table htable, horigin table htable⟩⟩
  · exact ExtTreeMap.mem_keys.mp (htabled.routes route hroute)
  · change built.generations.Pairwise _
    rw [hgenerations]
    refine List.pairwise_append.mpr ⟨h.ascending.filter _, List.pairwise_singleton _ _,
      fun g hg g' hg' => ?_⟩
    rw [List.mem_singleton.mp hg']
    exact holder g (List.mem_of_mem_filter hg)
  · change ∀ g ∈ built.generations, g.generation ≤ job.generation
    rw [hgenerations]
    refine List.forall_mem_append.mpr ⟨fun g hg => ?_, List.forall_mem_singleton.mpr le_rfl⟩
    exact (holder g (List.mem_of_mem_filter hg)).le
  · rcases htabled.known key hkey with hkept | ⟨hdone, hle⟩
    · obtain ⟨old, hnew, hmem⟩ := mem_keptOccupancy.mp hkept
      refine ⟨hcatalog key.1 (h.known _ hmem).1, ?_⟩
      exact (Nat.lt_succ_self _).trans (rebuildSlots_newSlot hrebuild hnew).1
    · exact ⟨ExtTreeMap.mem_keys.mp hdone, hle.trans_lt (Nat.pred_lt hlength.ne')⟩
  · intro e he slot hslot
    exact (horigin table htable e he).records hrebuild hslots.last_lt (hlisted table).2.2
      (fun info hinfo => List.mem_map_of_mem (htabled.stays info hinfo))
      (htabled.heaps table (ExtTreeMap.mem_keys.mpr htable)) slot hslot
  · rcases htabled.present info hinfo with hsome | hnew
    · obtain ⟨bytes, hbytes⟩ := Option.isSome_iff_exists.mp hsome
      exact Option.isSome_iff_exists.mpr ⟨bytes, hextends _ _ hbytes⟩
    · obtain ⟨file, hfile, hid⟩ := List.mem_map.mp hnew
      rw [← hid]
      exact Option.isSome_iff_exists.mpr ⟨file.2, Disk.write_of_mem htabled.nodup hfile⟩

section Built

variable {held : Disk} {next : Checkpoint}

/-- **The entities of a checkpoint that was built** are those of the view. -/
theorem Store.CheckpointJob.Built.has_iff (h : job.Built held disk disk' next)
    (hroot : job.state.root = .ofDisk held job.state.root.manifest) (key : ℕ × ℕ) :
    next.Has key ↔ key.1 ∈ job.state.catalog ∧
      (job.state.root.Has key ∨ key ∈ job.state.overlay ∧ key.2 ≤ maxU64) := by
  obtain ⟨slots, listed, listed', -, hlisted, hlisted'⟩ := h.lists
  obtain ⟨table, id⟩ := key
  rw [hroot, (hlisted table).1.has_iff (hlisted table).2.1]
  by_cases htable : table ∈ job.state.catalog
  · obtain ⟨hnext, hids, -⟩ := hlisted' table htable
    rw [h.eq_ofDisk, hnext.has_iff fun hnot => absurd (h.catalog_eq ▸ htable) hnot, hids]
    exact (and_iff_right htable).symm
  · refine iff_of_false ?_ fun hand => htable hand.1
    rintro ⟨value, hvalue⟩
    have hcontains : ¬next.manifest.catalog.contains table = true := by
      rw [h.catalog_eq]
      exact mt ExtTreeMap.contains_iff_mem.mp htable
    rw [Checkpoint.locate, if_pos hcontains] at hvalue
    cases hvalue

end Built

end Build

end EveDB
