import EveDB.Builder.Indexes
import EveDB.Builder.Plan
import EveDB.Store.History

/-!
# The build pass

A checkpoint is built in one pass over the tables (`CheckpointJob::build`). Each bucket of a
primary index is either taken over as the partition it is, or its entities are visited one by one,
those on disk merged with those of the overlay. What a visit does depends on the plan of the
collector: an entity that no transaction touched is carried, unless its generation leaves the
manifest or still has a quota, and then it is written anew.

What is written is written through a `Writer`; the pass keeps the quotas, the occupancy of the
next manifest, and for the statements below the entities that were written anew
(`Pass.rewritten`), which the engine only counts.
-/

namespace EveDB

open Std Store

/-- **What the tables of a checkpoint are written with.** -/
structure Writer (σ : Type) where
  create : (table : ℕ) → (rewriteIndexes : Bool) → σ → Reading σ
  carryPartition : (table : ℕ) → Checkpoint → Route → List (Option ℕ) → σ → Reading σ
  carryPartitionHistory : (table : ℕ) → Checkpoint → (lower upper : ℕ) → List (Option ℕ) → σ →
    Reading σ
  carry : (table : ℕ) → Checkpoint → (id : ℕ) → IndexValue → σ → Reading σ
  append : (table : ℕ) → (id : ℕ) → EntityData → σ → Reading σ
  /-- Ends a table, and returns how many entities were appended to it. -/
  finish : (table : ℕ) → σ → Reading (ℕ × σ)

/-- What a build pass has so far. -/
structure Pass (σ : Type) where
  /-- What is left to drain of each slot of the next manifest. -/
  quotas : ℕ → ℕ
  occupancy : SortedMap (ℕ × ℕ) Occupancy
  /-- The entities that were written anew. -/
  rewritten : List (ℕ × ℕ)
  writer : σ

/-! ### Visiting -/

/-- Merges what is on disk with the identifiers of the overlay, and visits each of them. -/
def visitEntries {α : Type} (visit : ℕ → Option IndexValue → α → Reading α) :
    List (Result (ℕ × IndexValue)) → List ℕ → α → Reading α
  | .error e :: _, _, _ => Guarded.lift (.error e)
  | [], [], a => return a
  | [], new :: recent, a => do visitEntries visit [] recent (← visit new none a)
  | .ok (old, value) :: disk, [], a => do
    visitEntries visit disk [] (← visit old (some value) a)
  | .ok (old, value) :: disk, new :: recent, a =>
    if old < new then do
      visitEntries visit disk (new :: recent) (← visit old (some value) a)
    else if new < old then do
      visitEntries visit (.ok (old, value) :: disk) recent (← visit new none a)
    else do visitEntries visit disk recent (← visit old (some value) a)
termination_by disk recent => disk.length + recent.length

namespace Store.ReadState

variable (state : ReadState)

/-- The identifiers of the overlay between two others. -/
def recent (table lower upper : ℕ) : List ℕ :=
  (state.overlay.keys.filter fun key => key.1 = table ∧ lower ≤ key.2 ∧ key.2 ≤ upper).map Prod.snd

/-- What the primary index has between two identifiers. -/
def indexed (table lower upper : ℕ) : List (Result (ℕ × IndexValue)) :=
  if table ∈ state.root.manifest.catalog then
    (state.root.files.scanIndex table 3 (lower, 0) (upper, maxU64)).map fun entry =>
      entry.map fun (key, value) => (key.1, value)
  else []

/-- Visits the entities of a table between two identifiers. -/
def visitEntriesRange {α : Type} (table lower upper : ℕ)
    (visit : ℕ → Option IndexValue → α → Reading α) (a : α) : Reading α :=
  visitEntries visit (state.indexed table lower upper) (state.recent table lower upper) a

/-- The buckets of a table: of its partitions, and of what the overlay has of it. -/
def buckets (table : ℕ) : SortedSet ℕ :=
  ExtTreeSet.ofList ((state.root.manifest.partitions.keys.filter fun route =>
      route.1 = table ∧ route.2.1 = 3).map (fun route => route.2.2.1) ++
    (state.recent table 0 maxU64).map fun id => (bucket 3 (id, 0)).1) compare

end Store.ReadState

namespace Writer

variable {σ : Type} (w : Writer σ) (state : ReadState) (slots : List (Option ℕ))

/-- Writes an entity anew. -/
def rewrite (table id : ℕ) (pass : Pass σ) : Reading (Pass σ) := do
  match ← state.load table id with
  | none => Guarded.lift (corrupt "entity vanished during checkpoint")
  | some data => do
    let writer ← w.append table id data pass.writer
    return { pass with rewritten := pass.rewritten ++ [(table, id)], writer }

/-- Visits an entity, which is carried where it can be. -/
def visit (table id : ℕ) (locator : Option IndexValue) (pass : Pass σ) : Reading (Pass σ) :=
  match locator with
  | none => w.rewrite state table id pass
  | some value => do
    let slot ← Guarded.lift (entitySlot value)
    match newSlot slots slot with
    -- the generation leaves the manifest, so every entity of it moves
    | none => w.rewrite state table id pass
    | some new =>
      if (table, id) ∉ state.overlay ∧ pass.quotas new = 0 then do
        let writer ← w.carry table state.root id (remap value new) pass.writer
        return { pass with writer }
      else
        let quotas :=
          if (table, id) ∈ state.overlay then pass.quotas
          else Function.update pass.quotas new (pass.quotas new - 1)
        -- a rewritten entity leaves an unreachable copy behind
        let left := (pass.occupancy[(table, new)]?).getD ⟨0, 0⟩
        w.rewrite state table id { pass with
          quotas
          occupancy := pass.occupancy.insert (table, new) { left with dead := left.dead + 1 } }

/-- Whether a partition can be taken over as it is: nothing in it was touched, and nothing of it
is drained. -/
def carries (quotas : ℕ → ℕ) (table lower upper : ℕ) (part : Partition) : Bool :=
  (state.recent table lower upper).isEmpty &&
    part.slots.toList.all fun entry => (newSlot slots entry.2).any fun new => quotas new = 0

/-- Visits a bucket of a table. -/
def visitBucket (table lower : ℕ) (pass : Pass σ) : Reading (Pass σ) :=
  let upper := saturatingAdd lower (width - 1)
  let route : Route := (table, 3, (lower, 0))
  if ((state.root.manifest.partitions[route]?).any fun part =>
      carries state slots pass.quotas table lower upper part) then do
    let writer ← w.carryPartition table state.root route slots pass.writer
    let writer ← w.carryPartitionHistory table state.root lower upper slots writer
    return { pass with writer }
  else state.visitEntriesRange table lower upper (w.visit state slots table) pass

/-- Visits buckets of a table. -/
def visitBuckets (table : ℕ) : List ℕ → Pass σ → Reading (Pass σ)
  | [], pass => return pass
  | lower :: buckets, pass => do
    visitBuckets table buckets (← w.visitBucket state slots table lower pass)

/-- Builds a table, whose new entities are in the slot `last`. -/
def visitTable (rewriteIndexes : Bool) (last table : ℕ) (pass : Pass σ) : Reading (Pass σ) := do
  let writer ← w.create table rewriteIndexes pass.writer
  let pass ← w.visitBuckets state slots table (state.buckets table).toList { pass with writer }
  let (entities, writer) ← w.finish table pass.writer
  let written := (pass.occupancy[(table, last)]?).getD ⟨0, 0⟩
  return { pass with
    occupancy := pass.occupancy.insert (table, last)
      { written with entities := written.entities + entities }
    writer }

/-- Builds tables. -/
def visitTables (rewriteIndexes : Bool) (last : ℕ) : List ℕ → Pass σ → Reading (Pass σ)
  | [], pass => return pass
  | table :: tables, pass => do
    visitTables rewriteIndexes last tables
      (← w.visitTable state slots rewriteIndexes last table pass)

end Writer

/-! ### Building -/

/-- What is left to drain of each slot of the next manifest. -/
def quotasOf (generations : List GenerationInfo) (slots : List (Option ℕ)) (plan : BTreeMap ℕ) :
    ℕ → ℕ :=
  generations.zipIdx.foldl (fun quotas (entry, old) =>
    match newSlot slots old with
    | some new => Function.update quotas new ((plan[entry.generation]?).getD 0)
    | none => quotas) fun _ => 0

/-- What is left to drain of a slot is what the plan says of each generation translated to it. -/
theorem quotasOf_of_forall {generations : List GenerationInfo} {slots : List (Option ℕ)}
    {plan : BTreeMap ℕ} {new quota : ℕ}
    (hall : ∀ e ∈ generations.zipIdx, newSlot slots e.2 = some new →
      (plan[e.1.generation]?).getD 0 = quota)
    (hany : ∃ e ∈ generations.zipIdx, newSlot slots e.2 = some new) :
    quotasOf generations slots plan new = quota := by
  rw [quotasOf]
  -- once a generation set the quota of the slot, each further one sets it to the same
  generalize generations.zipIdx = entries at hall hany
  have hset : (fun _ => 0 : ℕ → ℕ) new = quota ∨ ∃ e ∈ entries, newSlot slots e.2 = some new :=
    Or.inr hany
  generalize (fun _ => 0 : ℕ → ℕ) = quotas at hset
  clear hany
  induction entries generalizing quotas with
  | nil =>
    rcases hset with hset | ⟨e, he, -⟩
    · exact hset
    · cases he
  | cons e entries ih =>
    obtain ⟨hhead, hrest⟩ := List.forall_mem_cons.mp hall
    rw [List.foldl_cons]
    by_cases hthis : newSlot slots e.2 = some new
    · refine ih hrest _ (Or.inl ?_)
      dsimp only
      rw [hthis]
      dsimp only
      rw [Function.update_self]
      exact hhead hthis
    · refine ih hrest _ ?_
      rcases hset with hset | ⟨e', he', hnew⟩
      · left
        dsimp only
        cases hother : newSlot slots e.2 with
        | none => exact hset
        | some new' =>
          dsimp only
          rw [Function.update_of_ne, hset]
          rintro rfl
          exact hthis hother
      · rcases List.mem_cons.mp he' with rfl | he'
        · exact absurd hnew hthis
        · exact Or.inr ⟨e', he', hnew⟩

/-- The occupancy of the generations that stay, under their new slots. -/
def Root.keptOccupancy (root : Root) (slots : List (Option ℕ)) : SortedMap (ℕ × ℕ) Occupancy :=
  ExtTreeMap.ofList (root.occupancy.toList.filterMap fun entry =>
    (newSlot slots entry.1.2).map fun new => ((entry.1.1, new), entry.2)) compare

/-- A checkpoint that was built: the generations of its manifest, the translation of the old
slots, and what the pass over the tables left. -/
structure BuiltCheckpoint (σ : Type) where
  generations : List GenerationInfo
  slots : List (Option ℕ)
  pass : Pass σ

/-- **Builds a checkpoint** of a captured view. -/
def Writer.build {σ : Type} (w : Writer σ) (state : ReadState) (plan : BTreeMap ℕ)
    (generation : ℕ) (writer : σ) : Reading (BuiltCheckpoint σ) := do
  let root := state.root.manifest
  let (generations, slots) ←
    Guarded.lift (root.rebuildSlots (Root.absorbed plan) generation state.lsn)
  let rewriteIndexes :=
    (plan.toList.all fun entry => entry.2 = maxU64) && plan.size = root.generations.length
  let pass ← w.visitTables state slots rewriteIndexes (generations.length - 1)
    state.catalog.keys
    { quotas := quotasOf root.generations slots plan
      occupancy := root.keptOccupancy slots
      rewritten := []
      writer }
  return { generations, slots, pass }

/-! ### The entities of a generation -/

/-- **The primary indexes of a view hold these entries**, by identifier and in their order: scans
return them, each lies in the partition of its bucket, and the partition lists its slot. -/
structure Indexed (state : ReadState) (entries : ℕ → List (ℕ × IndexValue)) : Prop where
  ascending : ∀ table, ((entries table).map Prod.fst).Pairwise (· < ·)
  scan : ∀ table ∈ state.root.manifest.catalog, ∀ lower upper,
    state.root.files.scanIndex table 3 (lower, 0) (upper, maxU64) =
      ((entries table).filter fun e => lower ≤ e.1 ∧ e.1 ≤ upper).map fun e => .ok ((e.1, 0), e.2)
  absent : ∀ table ∉ state.root.manifest.catalog, entries table = []
  bounded : ∀ table, ∀ e ∈ entries table, e.1 ≤ maxU64
  part : ∀ table, ∀ e ∈ entries table, ∃ (slot stored : ℕ) (part : Partition),
    entitySlot e.2 = .ok slot ∧
    slot < state.root.manifest.generations.length ∧
    state.root.manifest.partitions[((table, 3, bucket 3 (e.1, 0)) : Route)]? = some part ∧
    part.slots[stored]? = some slot
  aligned : ∀ route ∈ state.root.manifest.partitions, route.2.1 = 3 →
    route.2.2 = bucket 3 route.2.2

/-- Whether an entry counts for a slot: it names the slot, and no transaction touched it. -/
def Store.ReadState.counts (state : ReadState) (table slot : ℕ) (e : ℕ × IndexValue) : Bool :=
  entitySlot e.2 = .ok slot ∧ (table, e.1) ∉ state.overlay

/-- The entities of a slot that no transaction touched, over all tables. -/
def Store.ReadState.untouched (state : ReadState) (entries : ℕ → List (ℕ × IndexValue)) (slot : ℕ) :
    List (ℕ × ℕ) :=
  state.catalog.keys.flatMap fun table =>
    ((entries table).filter (state.counts table slot)).map fun e => (table, e.1)

section Entities

variable {state : ReadState} {entries : ℕ → List (ℕ × IndexValue)} {slot table : ℕ}

theorem mem_untouched {key : ℕ × ℕ} : key ∈ state.untouched entries slot ↔
    key.1 ∈ state.catalog ∧ key ∉ state.overlay ∧
      ∃ value, (key.2, value) ∈ entries key.1 ∧ entitySlot value = .ok slot := by
  obtain ⟨table, id⟩ := key
  rw [ReadState.untouched, List.mem_flatMap]
  constructor
  · rintro ⟨table', htable, hkey⟩
    obtain ⟨⟨id', value⟩, he, heq⟩ := List.mem_map.mp hkey
    obtain ⟨rfl, rfl⟩ := Prod.mk.inj heq
    obtain ⟨hmem, hcounts⟩ := List.mem_filter.mp he
    obtain ⟨hslot, hnew⟩ := of_decide_eq_true hcounts
    exact ⟨ExtTreeMap.mem_keys.mp htable, hnew, value, hmem, hslot⟩
  · rintro ⟨htable, hnew, value, hmem, hslot⟩
    exact ⟨table, ExtTreeMap.mem_keys.mpr htable, List.mem_map.mpr
      ⟨(id, value), List.mem_filter.mpr ⟨hmem, decide_eq_true ⟨hslot, hnew⟩⟩, rfl⟩⟩

theorem length_untouched : (state.untouched entries slot).length =
    (state.catalog.keys.map fun table =>
      (entries table).countP (state.counts table slot)).sum := by
  rw [ReadState.untouched, List.length_flatMap]
  congr 2
  funext table
  rw [List.length_map, List.countP_eq_length_filter]

/-- An identifier has one entry. -/
theorem Indexed.value_unique (h : Indexed state entries) {id : ℕ} {value value' : IndexValue}
    (hmem : (id, value) ∈ entries table) (hmem' : (id, value') ∈ entries table) :
    value = value' := by
  have hnodup : ((entries table).map Prod.fst).Nodup := (h.ascending table).imp fun hlt => hlt.ne
  exact congrArg Prod.snd (List.inj_on_of_nodup_map hnodup hmem hmem' rfl)

end Entities

/-! ### Draining -/

/-- **How far the slots are drained** after so many untouched entities of each: a slot that leaves
the manifest moved them all, and another one as many as its quota allows. -/
structure Drained {σ : Type} (state : ReadState) (entries : ℕ → List (ℕ × IndexValue))
    (slots : List (Option ℕ)) (quota seen : ℕ → ℕ) (pass : Pass σ) : Prop where
  moved : ∀ slot, pass.rewritten.countP (fun key => key ∈ state.untouched entries slot) =
    if newSlot slots slot = none then seen slot else min (quota slot) (seen slot)
  left : ∀ slot new, newSlot slots slot = some new → pass.quotas new = quota slot - seen slot
  known : ∀ key ∈ pass.rewritten, key ∉ state.overlay →
    ∃ slot < state.root.manifest.generations.length, key ∈ state.untouched entries slot

section Drained

variable {σ : Type} {w : Writer σ} {state : ReadState} {entries : ℕ → List (ℕ × IndexValue)}
  {slots : List (Option ℕ)} {quota seen : ℕ → ℕ} {pass pass' : Pass σ} {table id : ℕ}

/-- Writing an entity anew leaves the quotas alone. -/
theorem rewrite_spec (h : (w.rewrite state table id pass).result = .ok pass') :
    pass'.quotas = pass.quotas ∧ pass'.rewritten = pass.rewritten ++ [(table, id)] := by
  rw [Writer.rewrite, Guarded.result_bind] at h
  obtain ⟨loaded, -, h⟩ := bind_eq_ok.mp h
  cases loaded with
  | none => cases h
  | some data =>
    rw [Guarded.result_bind] at h
    obtain ⟨writer, -, h⟩ := bind_eq_ok.mp h
    cases h
    exact ⟨rfl, rfl⟩

/-- A touched entity that is written anew counts for no slot. -/
theorem Drained.of_touched (h : Drained state entries slots quota seen pass)
    (htouched : (table, id) ∈ state.overlay) (hquotas : pass'.quotas = pass.quotas)
    (hrewritten : pass'.rewritten = pass.rewritten ++ [(table, id)]) :
    Drained state entries slots quota seen pass' where
  moved slot := by
    have hnot : (table, id) ∉ state.untouched entries slot := fun hmem =>
      (mem_untouched.mp hmem).2.1 htouched
    rw [hrewritten, List.countP_append, List.countP_singleton,
      if_neg (by rw [decide_eq_true_eq]; exact hnot), Nat.add_zero, h.moved]
  left slot new hnew := by
    rw [hquotas]
    exact h.left slot new hnew
  known := by
    rw [hrewritten]
    refine List.forall_mem_append.mpr ⟨h.known, List.forall_mem_singleton.mpr ?_⟩
    exact fun hnot => absurd htouched hnot

/-- An untouched entity that is written anew counts for its slot, and is taken off its quota. -/
theorem Drained.of_moved (h : Drained state entries slots quota seen pass)
    (hindexed : Indexed state entries) (htable : table ∈ state.catalog) {value : IndexValue}
    (hmem : (id, value) ∈ entries table) (huntouched : (table, id) ∉ state.overlay) {slot : ℕ}
    (hslot : entitySlot value = .ok slot) (hlt : slot < state.root.manifest.generations.length)
    (hrewritten : pass'.rewritten = pass.rewritten ++ [(table, id)])
    (hroom : ∀ new, newSlot slots slot = some new → pass.quotas new ≠ 0)
    (hquotas : ∀ slot' new, newSlot slots slot' = some new →
      pass'.quotas new = pass.quotas new - if slot' = slot then 1 else 0) :
    Drained state entries slots quota (Function.update seen slot (seen slot + 1)) pass' := by
  have hcounted (slot' : ℕ) : (table, id) ∈ state.untouched entries slot' ↔ slot' = slot := by
    rw [mem_untouched]
    constructor
    · rintro ⟨-, -, value', hmem', hslot'⟩
      obtain rfl := hindexed.value_unique hmem hmem'
      exact Except.ok.inj (hslot'.symm.trans hslot)
    · rintro rfl
      exact ⟨htable, huntouched, value, hmem, hslot⟩
  refine ⟨fun slot' => ?_, fun slot' new hnew => ?_, ?_⟩
  · have hcount : pass'.rewritten.countP (fun key => key ∈ state.untouched entries slot') =
        pass.rewritten.countP (fun key => key ∈ state.untouched entries slot') +
          if slot' = slot then 1 else 0 := by
      rw [hrewritten, List.countP_append, List.countP_singleton]
      congr 1
      exact if_congr (decide_eq_true_iff.trans (hcounted slot')) rfl rfl
    rw [hcount, h.moved]
    by_cases heq : slot' = slot
    · subst heq
      rw [Function.update_self, if_pos rfl]
      cases hnew : newSlot slots slot' with
      | none => rw [if_pos rfl, if_pos rfl]
      | some new =>
        have hleft := h.left slot' new hnew
        have hroom := hroom new hnew
        rw [if_neg (Option.some_ne_none _), if_neg (Option.some_ne_none _)]
        omega
    · rw [Function.update_of_ne heq, if_neg heq, Nat.add_zero]
  · rw [hquotas slot' new hnew, h.left slot' new hnew]
    by_cases heq : slot' = slot
    · rw [heq, Function.update_self, if_pos rfl, Nat.sub_sub]
    · rw [Function.update_of_ne heq, if_neg heq, Nat.sub_zero]
  · rw [hrewritten]
    refine List.forall_mem_append.mpr ⟨h.known, List.forall_mem_singleton.mpr fun _ => ?_⟩
    exact ⟨slot, hlt, (hcounted slot).mpr rfl⟩

/-- Entities of slots with nothing left to drain stay where they are. -/
theorem Drained.of_carried (h : Drained state entries slots quota seen pass)
    (hquotas : pass'.quotas = pass.quotas) (hrewritten : pass'.rewritten = pass.rewritten)
    {more : ℕ → ℕ} (hmore : ∀ slot, more slot ≠ 0 →
      ∃ new, newSlot slots slot = some new ∧ pass.quotas new = 0) :
    Drained state entries slots quota (fun slot => seen slot + more slot) pass' := by
  refine ⟨fun slot => ?_, fun slot new hnew => ?_, ?_⟩
  · rw [hrewritten, h.moved]
    by_cases hzero : more slot = 0
    · rw [hzero, Nat.add_zero]
    · obtain ⟨new, hnew, hleft⟩ := hmore slot hzero
      rw [h.left slot new hnew] at hleft
      rw [hnew, if_neg (Option.some_ne_none _), if_neg (Option.some_ne_none _)]
      omega
  · rw [hquotas]
    by_cases hzero : more slot = 0
    · rw [hzero, Nat.add_zero]
      exact h.left slot new hnew
    · obtain ⟨new', hnew', hleft⟩ := hmore slot hzero
      obtain rfl : new = new' := Option.some.inj (hnew.symm.trans hnew')
      have hseen := h.left slot new hnew
      omega
  · rw [hrewritten]
    exact h.known

section Visits

variable (hindexed : Indexed state entries) (htable : table ∈ state.catalog)
  (hinjective : ∀ slot slot' new, newSlot slots slot = some new → newSlot slots slot' = some new →
    slot = slot')

include hindexed htable hinjective

/-- **A visit** of an entity on disk. -/
theorem Drained.visit (h : Drained state entries slots quota seen pass) {value : IndexValue}
    (hmem : (id, value) ∈ entries table)
    (hok : (w.visit state slots table id (some value) pass).result = .ok pass') :
    Drained state entries slots quota
      (fun slot => seen slot + [(id, value)].countP (state.counts table slot)) pass' := by
  obtain ⟨slot, stored, part, hslot, hlt, -, -⟩ := hindexed.part table _ hmem
  have hcount (slot' : ℕ) : [(id, value)].countP (state.counts table slot') =
      if slot' = slot ∧ (table, id) ∉ state.overlay then 1 else 0 := by
    rw [List.countP_singleton]
    refine if_congr (decide_eq_true_iff.trans (and_congr_left' ?_)) rfl rfl
    rw [hslot]
    exact ⟨fun heq => (Except.ok.inj heq).symm, fun heq => heq ▸ rfl⟩
  have hone : ∀ (_ : (table, id) ∉ state.overlay),
      (fun slot' => seen slot' + [(id, value)].countP (state.counts table slot')) =
        Function.update seen slot (seen slot + 1) := by
    intro hnot
    funext slot'
    rw [hcount]
    by_cases heq : slot' = slot
    · rw [if_pos ⟨heq, hnot⟩, heq, Function.update_self]
    · rw [if_neg fun hand => heq hand.1, Function.update_of_ne heq, Nat.add_zero]
  rw [Writer.visit, Guarded.result_bind, Guarded.result_lift, hslot, ok_bind] at hok
  by_cases htouched : (table, id) ∈ state.overlay
  · -- a touched entity is written anew, whatever its generation
    have hnone : (fun slot' => seen slot' + [(id, value)].countP (state.counts table slot')) =
        seen := by
      funext slot'
      rw [hcount, if_neg fun hand => hand.2 htouched, Nat.add_zero]
    rw [hnone]
    cases hnew : newSlot slots slot with
    | none =>
      rw [hnew] at hok
      obtain ⟨hquotas, hrewritten⟩ := rewrite_spec hok
      exact h.of_touched htouched hquotas hrewritten
    | some new =>
      rw [hnew] at hok
      dsimp only at hok
      rw [if_neg fun hand => hand.1 htouched, if_pos htouched] at hok
      obtain ⟨hquotas, hrewritten⟩ := rewrite_spec hok
      exact h.of_touched htouched hquotas hrewritten
  · rw [hone htouched]
    cases hnew : newSlot slots slot with
    | none =>
      rw [hnew] at hok
      obtain ⟨hquotas, hrewritten⟩ := rewrite_spec hok
      refine h.of_moved hindexed htable hmem htouched hslot hlt hrewritten ?_ ?_
      · intro new hsome
        rw [hnew] at hsome
        cases hsome
      · intro slot' new hsome
        rw [hquotas, if_neg, Nat.sub_zero]
        rintro rfl
        rw [hnew] at hsome
        cases hsome
    | some new =>
      rw [hnew] at hok
      dsimp only at hok
      by_cases hzero : pass.quotas new = 0
      · -- nothing is left to drain of its slot
        rw [if_pos ⟨htouched, hzero⟩, Guarded.result_bind] at hok
        obtain ⟨writer, -, hok⟩ := bind_eq_ok.mp hok
        have hquotas : pass'.quotas = pass.quotas := by
          cases hok
          rfl
        have hrewritten : pass'.rewritten = pass.rewritten := by
          cases hok
          rfl
        rw [← hone htouched]
        refine h.of_carried hquotas hrewritten fun slot' hmore => ?_
        rw [hcount] at hmore
        by_cases heq : slot' = slot
        · exact ⟨new, heq ▸ hnew, hzero⟩
        · exact absurd (if_neg fun hand => heq hand.1) hmore
      · rw [if_neg fun hand => hzero hand.2, if_neg htouched] at hok
        obtain ⟨hquotas, hrewritten⟩ := rewrite_spec hok
        refine h.of_moved hindexed htable hmem htouched hslot hlt hrewritten ?_ ?_
        · intro new' hsome
          rw [hnew] at hsome
          cases hsome
          exact hzero
        · intro slot' new' hsome
          rw [hquotas]
          by_cases heq : slot' = slot
          · subst heq
            obtain rfl : new = new' := Option.some.inj (hnew.symm.trans hsome)
            rw [if_pos rfl]
            exact Function.update_self ..
          · rw [if_neg heq, Nat.sub_zero]
            refine Function.update_of_ne ?_ _ _
            rintro rfl
            exact heq (hinjective _ _ _ hsome hnew)

/-- **A run of visits**, of what is on disk and of what the overlay has. -/
theorem Drained.visitEntries {disk : List (ℕ × IndexValue)} {recent : List ℕ}
    (h : Drained state entries slots quota seen pass) (hdisk : ∀ e ∈ disk, e ∈ entries table)
    (hrecent : ∀ id ∈ recent, (table, id) ∈ state.overlay)
    (hok : (EveDB.visitEntries (w.visit state slots table) (disk.map .ok) recent pass).result =
      .ok pass') :
    Drained state entries slots quota
      (fun slot => seen slot + disk.countP (state.counts table slot)) pass' := by
  -- an identifier of the overlay that is not on disk is written anew
  have hnew {id : ℕ} {seen : ℕ → ℕ} {pass pass' : Pass σ}
      (h : Drained state entries slots quota seen pass) (hmem : (table, id) ∈ state.overlay)
      (hok : (w.visit state slots table id none pass).result = .ok pass') :
      Drained state entries slots quota seen pass' := by
    obtain ⟨hquotas, hrewritten⟩ := rewrite_spec hok
    exact h.of_touched hmem hquotas hrewritten
  induction disk generalizing recent pass seen with
  | nil =>
    induction recent generalizing pass with
    | nil =>
      rw [List.map_nil, EveDB.visitEntries] at hok
      cases hok
      exact h
    | cons new recent ih =>
      obtain ⟨hmem, hrecent⟩ := List.forall_mem_cons.mp hrecent
      rw [List.map_nil, EveDB.visitEntries, Guarded.result_bind] at hok
      obtain ⟨mid, hvisit, hok⟩ := bind_eq_ok.mp hok
      exact ih (hnew h hmem hvisit) hrecent hok
  | cons e disk ihdisk =>
    obtain ⟨old, value⟩ := e
    obtain ⟨hmem, hdisk⟩ := List.forall_mem_cons.mp hdisk
    have hcons (slot : ℕ) : ((old, value) :: disk).countP (state.counts table slot) =
        [(old, value)].countP (state.counts table slot) +
          disk.countP (state.counts table slot) := by
      rw [← List.singleton_append, List.countP_append]
    have hstep {recent : List ℕ} {pass mid : Pass σ}
        (h : Drained state entries slots quota seen pass)
        (hrecent : ∀ id ∈ recent, (table, id) ∈ state.overlay)
        (hvisit : (w.visit state slots table old (some value) pass).result = .ok mid)
        (hok : (EveDB.visitEntries (w.visit state slots table) (disk.map .ok) recent mid).result =
          .ok pass') :
        Drained state entries slots quota
          (fun slot => seen slot + ((old, value) :: disk).countP (state.counts table slot))
          pass' := by
      have hrest := ihdisk (h.visit hindexed htable hinjective hmem hvisit) hdisk hrecent hok
      simp only [hcons, ← Nat.add_assoc]
      exact hrest
    induction recent generalizing pass with
    | nil =>
      rw [List.map_cons, EveDB.visitEntries, Guarded.result_bind] at hok
      obtain ⟨mid, hvisit, hok⟩ := bind_eq_ok.mp hok
      exact hstep h hrecent hvisit hok
    | cons new recent ih =>
      obtain ⟨hnewmem, hrecent'⟩ := List.forall_mem_cons.mp hrecent
      rw [List.map_cons, EveDB.visitEntries] at hok
      split at hok
      · rw [Guarded.result_bind] at hok
        obtain ⟨mid, hvisit, hok⟩ := bind_eq_ok.mp hok
        exact hstep h hrecent hvisit hok
      · split at hok
        · rw [Guarded.result_bind] at hok
          obtain ⟨mid, hvisit, hok⟩ := bind_eq_ok.mp hok
          exact ih (hnew h hnewmem hvisit) hrecent' hok
        · rw [Guarded.result_bind] at hok
          obtain ⟨mid, hvisit, hok⟩ := bind_eq_ok.mp hok
          exact hstep h hrecent' hvisit hok

end Visits

/-! ### Buckets -/

/-- The entries of a bucket. -/
def inBucket (lower : ℕ) (e : ℕ × IndexValue) : Bool :=
  lower ≤ e.1 ∧ e.1 ≤ saturatingAdd lower (width - 1)

/-- An entry lies in the bucket its identifier names. -/
theorem inBucket_iff {lower : ℕ} {e : ℕ × IndexValue} (haligned : lower % width = 0)
    (hbound : e.1 ≤ maxU64) : inBucket lower e ↔ (bucket 3 (e.1, 0)).1 = lower := by
  rw [inBucket, decide_eq_true_eq, bucket, if_pos rfl, saturatingAdd]
  rw [width] at haligned ⊢
  dsimp only
  omega

theorem mem_recent {lower upper : ℕ} : id ∈ state.recent table lower upper ↔
    (table, id) ∈ state.overlay ∧ lower ≤ id ∧ id ≤ upper := by
  rw [Store.ReadState.recent, List.mem_map]
  constructor
  · rintro ⟨⟨table', id'⟩, hmem, rfl⟩
    obtain ⟨hkey, hdecided⟩ := List.mem_filter.mp hmem
    obtain ⟨rfl, hwithin⟩ := of_decide_eq_true hdecided
    exact ⟨ExtTreeMap.mem_keys.mp hkey, hwithin⟩
  · rintro ⟨hmem, hwithin⟩
    exact ⟨(table, id), List.mem_filter.mpr
      ⟨ExtTreeMap.mem_keys.mpr hmem, decide_eq_true ⟨rfl, hwithin⟩⟩, rfl⟩

/-- What the primary index has of a bucket. -/
theorem Indexed.indexed_eq (h : Indexed state entries) (lower : ℕ) :
    state.indexed table lower (saturatingAdd lower (width - 1)) =
      ((entries table).filter (inBucket lower)).map .ok := by
  rw [Store.ReadState.indexed]
  split
  · next hmem =>
    rw [h.scan table hmem, List.map_map]
    rfl
  · next hnot =>
    rw [h.absent table hnot]
    rfl

section Buckets

variable (hindexed : Indexed state entries) (htable : table ∈ state.catalog)
  (hinjective : ∀ slot slot' new, newSlot slots slot = some new → newSlot slots slot' = some new →
    slot = slot')

include hindexed htable hinjective

/-- **A bucket**, taken over as it is or visited. -/
theorem Drained.visitBucket {lower : ℕ} (h : Drained state entries slots quota seen pass)
    (haligned : lower % width = 0)
    (hok : (w.visitBucket state slots table lower pass).result = .ok pass') :
    Drained state entries slots quota (fun slot =>
      seen slot + ((entries table).filter (inBucket lower)).countP (state.counts table slot))
      pass' := by
  rw [Writer.visitBucket] at hok
  split at hok
  · next hcarries =>
    obtain ⟨part, hpart, hcarries⟩ := (Option.any_eq_true _ _).mp hcarries
    rw [Writer.carries, Bool.and_eq_true, List.isEmpty_iff, List.all_eq_true] at hcarries
    obtain ⟨huntouched, hslots⟩ := hcarries
    rw [Guarded.result_bind] at hok
    obtain ⟨writer, -, hok⟩ := bind_eq_ok.mp hok
    rw [Guarded.result_bind] at hok
    obtain ⟨writer', -, hok⟩ := bind_eq_ok.mp hok
    have hquotas : pass'.quotas = pass.quotas := by
      cases hok
      rfl
    have hrewritten : pass'.rewritten = pass.rewritten := by
      cases hok
      rfl
    refine h.of_carried hquotas hrewritten fun slot hmore => ?_
    obtain ⟨e, he, hcounts⟩ := List.countP_pos_iff.mp (Nat.pos_of_ne_zero hmore)
    obtain ⟨hmem, hin⟩ := List.mem_filter.mp he
    obtain ⟨slot', stored, part', hslot', hlt, hpart', hstored⟩ := hindexed.part table e hmem
    obtain ⟨hslot, -⟩ := of_decide_eq_true hcounts
    obtain rfl : slot' = slot := Except.ok.inj (hslot'.symm.trans hslot)
    have hbucket := (inBucket_iff haligned (hindexed.bounded table e hmem)).mp hin
    have hroute : bucket 3 (e.1, 0) = (lower, 0) := Prod.ext hbucket rfl
    rw [hroute] at hpart'
    obtain rfl : part = part' := Option.some.inj (hpart.symm.trans hpart')
    have hany := hslots (stored, slot') (ExtTreeMap.mem_toList_iff_getElem?_eq_some.mpr hstored)
    obtain ⟨new, hnew, hzero⟩ := (Option.any_eq_true _ _).mp hany
    exact ⟨new, hnew, of_decide_eq_true hzero⟩
  · rw [Store.ReadState.visitEntriesRange, hindexed.indexed_eq] at hok
    exact h.visitEntries hindexed htable hinjective
      (fun e he => List.mem_of_mem_filter he) (fun id hid => (mem_recent.mp hid).1) hok

/-- **Buckets**, one after the other. -/
theorem Drained.visitBuckets {buckets : List ℕ} (h : Drained state entries slots quota seen pass)
    (haligned : ∀ lower ∈ buckets, lower % width = 0)
    (hok : (w.visitBuckets state slots table buckets pass).result = .ok pass') :
    Drained state entries slots quota (fun slot => seen slot + (buckets.map fun lower =>
      ((entries table).filter (inBucket lower)).countP (state.counts table slot)).sum) pass' := by
  induction buckets generalizing pass seen with
  | nil =>
    cases hok
    exact h
  | cons lower buckets ih =>
    obtain ⟨hlower, haligned⟩ := List.forall_mem_cons.mp haligned
    rw [Writer.visitBuckets, Guarded.result_bind] at hok
    obtain ⟨mid, hbucket, hok⟩ := bind_eq_ok.mp hok
    have hrest := ih (h.visitBucket hindexed htable hinjective hlower hbucket) haligned hok
    simp only [List.map_cons, List.sum_cons, ← Nat.add_assoc]
    exact hrest

end Buckets

/-! ### Tables -/

section Counting

variable {α β : Type}

theorem sum_indicator (parts : List β) (q : β → Bool) :
    (parts.map fun b => if q b then 1 else 0).sum = parts.countP q := by
  induction parts with
  | nil => rfl
  | cons b parts ih => rw [List.map_cons, List.sum_cons, ih, List.countP_cons, Nat.add_comm]

/-- **Counting by parts** that each element lies in exactly one of. -/
theorem sum_countP_filter {l : List α} {parts : List β} {within : β → α → Bool}
    (h : ∀ a ∈ l, parts.countP (fun b => within b a) = 1) (p : α → Bool) :
    (parts.map fun b => (l.filter (within b)).countP p).sum = l.countP p := by
  induction l with
  | nil =>
    refine List.sum_eq_zero fun n hn => ?_
    obtain ⟨b, -, rfl⟩ := List.mem_map.mp hn
    rfl
  | cons a l ih =>
    obtain ⟨ha, hl⟩ := List.forall_mem_cons.mp h
    have hsplit (b : β) : ((a :: l).filter (within b)).countP p =
        (l.filter (within b)).countP p + if within b a && p a then 1 else 0 := by
      by_cases hb : within b a
      · rw [List.filter_cons_of_pos hb, List.countP_cons, hb, Bool.true_and]
      · rw [List.filter_cons_of_neg hb, if_neg, Nat.add_zero]
        rw [Bool.and_eq_true]
        exact fun hand => hb hand.1
    have hone : parts.countP (fun b => within b a && p a) = if p a then 1 else 0 := by
      cases p a with
      | true => simpa only [Bool.and_true, if_true] using ha
      | false => simp only [Bool.and_false, List.countP_false]; rfl
    simp only [hsplit, List.sum_map_add, ih hl, sum_indicator, hone]
    rw [List.countP_cons]

end Counting

theorem mem_buckets {lower : ℕ} : lower ∈ (state.buckets table).toList ↔
    (∃ route ∈ state.root.manifest.partitions, route.1 = table ∧ route.2.1 = 3 ∧
      route.2.2.1 = lower) ∨
    ∃ id, (table, id) ∈ state.overlay ∧ id ≤ maxU64 ∧ (bucket 3 (id, 0)).1 = lower := by
  rw [ExtTreeSet.mem_toList, Store.ReadState.buckets, SortedMap.mem_setOfList, List.mem_append]
  refine or_congr ?_ ?_
  · rw [List.mem_map]
    constructor
    · rintro ⟨route, hmem, rfl⟩
      obtain ⟨hkey, hdecided⟩ := List.mem_filter.mp hmem
      obtain ⟨htable, hkind⟩ := of_decide_eq_true hdecided
      exact ⟨route, ExtTreeMap.mem_keys.mp hkey, htable, hkind, rfl⟩
    · rintro ⟨route, hmem, htable, hkind, rfl⟩
      exact ⟨route, List.mem_filter.mpr
        ⟨ExtTreeMap.mem_keys.mpr hmem, decide_eq_true ⟨htable, hkind⟩⟩, rfl⟩
  · rw [List.mem_map]
    constructor
    · rintro ⟨id, hmem, rfl⟩
      obtain ⟨hmem, -, hbound⟩ := mem_recent.mp hmem
      exact ⟨id, hmem, hbound, rfl⟩
    · rintro ⟨id, hmem, hbound, rfl⟩
      exact ⟨id, mem_recent.mpr ⟨hmem, Nat.zero_le _, hbound⟩, rfl⟩

theorem bucket_aligned (key : Key) : (bucket 3 key).1 % width = 0 := by
  simp only [bucket, if_true, Nat.mul_mod_left]

/-- The buckets of a table begin at multiples of their width. -/
theorem buckets_aligned (hindexed : Indexed state entries) {lower : ℕ}
    (h : lower ∈ (state.buckets table).toList) : lower % width = 0 := by
  rcases mem_buckets.mp h with ⟨route, hmem, -, hkind, rfl⟩ | ⟨id, -, -, rfl⟩
  · rw [hindexed.aligned route hmem hkind]
    exact bucket_aligned route.2.2
  · exact bucket_aligned (id, 0)

/-- **Each entry lies in exactly one bucket** of its table. -/
theorem countP_inBucket (hindexed : Indexed state entries) {e : ℕ × IndexValue}
    (he : e ∈ entries table) :
    (state.buckets table).toList.countP (fun lower => inBucket lower e) = 1 := by
  obtain ⟨slot, stored, part, -, -, hpart, -⟩ := hindexed.part table e he
  have hmem : (bucket 3 (e.1, 0)).1 ∈ (state.buckets table).toList :=
    mem_buckets.mpr (Or.inl ⟨_, ExtTreeMap.mem_iff_isSome_getElem?.mpr (by rw [hpart]; rfl),
      rfl, rfl, rfl⟩)
  have hnodup : (state.buckets table).toList.Nodup :=
    ExtTreeSet.distinct_toList.imp fun hne heq => hne (by rw [heq]; exact ReflOrd.compare_self)
  rw [← List.count_eq_one_of_mem hnodup hmem, List.count]
  refine List.countP_congr fun lower hlower => ?_
  rw [inBucket_iff (buckets_aligned hindexed hlower) (hindexed.bounded table e he), beq_iff_eq]
  exact eq_comm

/-- What a pass has drained does not depend on its writer. -/
theorem Drained.congr (h : Drained state entries slots quota seen pass)
    (hquotas : pass'.quotas = pass.quotas) (hrewritten : pass'.rewritten = pass.rewritten) :
    Drained state entries slots quota seen pass' := by
  refine ⟨fun slot => ?_, fun slot new hnew => ?_, ?_⟩
  · rw [hrewritten]
    exact h.moved slot
  · rw [hquotas]
    exact h.left slot new hnew
  · rw [hrewritten]
    exact h.known

section Tables

variable (hindexed : Indexed state entries)
  (hinjective : ∀ slot slot' new, newSlot slots slot = some new → newSlot slots slot' = some new →
    slot = slot')

include hindexed hinjective

/-- **A table**: each of its entries is dealt with once. -/
theorem Drained.visitTable {rewriteIndexes : Bool} {last : ℕ} (htable : table ∈ state.catalog)
    (h : Drained state entries slots quota seen pass)
    (hok : (w.visitTable state slots rewriteIndexes last table pass).result = .ok pass') :
    Drained state entries slots quota
      (fun slot => seen slot + (entries table).countP (state.counts table slot)) pass' := by
  rw [Writer.visitTable, Guarded.result_bind] at hok
  obtain ⟨writer, -, hok⟩ := bind_eq_ok.mp hok
  rw [Guarded.result_bind] at hok
  obtain ⟨mid, hbuckets, hok⟩ := bind_eq_ok.mp hok
  rw [Guarded.result_bind] at hok
  obtain ⟨⟨count, writer'⟩, -, hok⟩ := bind_eq_ok.mp hok
  have hstart : Drained state entries slots quota seen { pass with writer } := h.congr rfl rfl
  have hdone := hstart.visitBuckets hindexed htable hinjective
    (fun lower hlower => buckets_aligned hindexed hlower) hbuckets
  simp only [sum_countP_filter fun e he => countP_inBucket hindexed he] at hdone
  cases hok
  exact hdone.congr rfl rfl

/-- **Tables**, one after the other. -/
theorem Drained.visitTables {rewriteIndexes : Bool} {last : ℕ} {tables : List ℕ}
    (htables : ∀ table ∈ tables, table ∈ state.catalog)
    (h : Drained state entries slots quota seen pass)
    (hok : (w.visitTables state slots rewriteIndexes last tables pass).result = .ok pass') :
    Drained state entries slots quota (fun slot => seen slot + (tables.map fun table =>
      (entries table).countP (state.counts table slot)).sum) pass' := by
  induction tables generalizing pass seen with
  | nil =>
    cases hok
    exact h
  | cons table tables ih =>
    obtain ⟨htable, htables⟩ := List.forall_mem_cons.mp htables
    rw [Writer.visitTables, Guarded.result_bind] at hok
    obtain ⟨mid, hvisit, hok⟩ := bind_eq_ok.mp hok
    have hrest := ih htables (h.visitTable hindexed hinjective htable hvisit) hok
    simp only [List.map_cons, List.sum_cons, ← Nat.add_assoc]
    exact hrest

end Tables

end Drained

end EveDB
