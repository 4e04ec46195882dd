import EveDB.Builder.Rooted
import EveDB.Builder.Walk
import EveDB.Library.Merged
import EveDB.Store.Cursor
import Mathlib.Data.List.Find

/-!
# Scanning a table

A scan visits the entities of a table in the order of their identifiers (`ReadState.scan`). It
runs through the primary index and the overlay side by side, and reads each record through the
entry it already has.

Over a root that builds lead to (`Rooted`), what is visited between two identifiers is the sorted
list of those on disk and in the overlay (`ReadState.present`), each with what the primary index
has of it, and a scan does on each what a read of it returns.

The two do not ask for the same memory. A read of an entity in the overlay has its decoded bytes
admitted, and a scan takes the entity as it is: so a scan visits entities that reads are refused
(`exists_scan_refused_get`), and reads return what it visits where they are granted what they ask
for.
-/

namespace EveDB

open Store Index

open Std (ExtTreeMap)

/-- **The indexes of a checkpoint are read from its directory**: what is given of its files is
what the queries of its manifest return there. -/
structure Store.Checkpoint.ReadsFrom (root : Checkpoint) (disk : Disk) : Prop where
  lookup : ∀ table ∈ root.manifest.catalog, ∀ (i : Fin 3) (key : Key),
    root.files.lookupIndex table (Indexes.kind i) key =
      root.manifest.lookupIndex disk table (Indexes.kind i) key
  scan : ∀ table ∈ root.manifest.catalog, ∀ (i : Fin 3) (lower upper : Key) (n : ℕ),
    (root.files.scanIndex table (Indexes.kind i) lower upper)[n]? =
      (root.manifest.scanIndex disk table (Indexes.kind i) lower upper).nth n

/-- Every root that builds lead to can be read from its directory. -/
theorem Rooted.exists_files {disk : Disk} {root : Root} (h : Rooted disk root) :
    ∃ files, (⟨root, files⟩ : Checkpoint).ReadsFrom disk := by
  choose entries hlisted using h.lists.listed
  refine ⟨{ Files.empty with
    lookupIndex table kind key := root.lookupIndex disk table kind key
    scanIndex table kind lower upper :=
      if hmem : table ∈ root.catalog ∧ kind - 3 < 3 then
        (SortedList.range order (toLex lower) (toLex upper)
          (entries table hmem.1 ⟨kind - 3, hmem.2⟩)).map .ok
      else [] }, fun _ _ _ _ => rfl, fun table htable i lower upper n => ?_⟩
  have hmem : table ∈ root.catalog ∧ Indexes.kind i - 3 < 3 := ⟨htable, i.isLt⟩
  rw [((hlisted table htable i).routed).scanIndex]
  dsimp only
  rw [dif_pos hmem, List.getElem?_map]
  rfl

namespace Store.ReadState

variable (view : ReadState)

/-- The entity a scan has come to, read through the entry it already has. -/
def scannedEntity (table id : ℕ) (locator : Option IndexValue) : Reading Entity :=
  match view.overlay[(table, id)]? with
  | some data => return data.current
  | none =>
    match locator with
    | none => Guarded.lift (corrupt "scanned entity has no record")
    | some value => view.root.state false table 0 value.1 id

/-- Visits one entity of a scan, unless it is deleted. -/
def scanEntry {α : Type} (table : ℕ) (visit : Entity → α → Reading α) (id : ℕ)
    (locator : Option IndexValue) (a : α) : Reading α := do
  let entity ← view.scannedEntity table id locator
  if entity.deleted then return a else visit entity a

/-- **Visits the live entities of a table**, in the order of their identifiers. -/
def scan {α : Type} (table : ℕ) (visit : Entity → α → Reading α) (a : α) : Reading α := do
  let _ ← Guarded.lift (view.catalog.table table)
  view.visitEntriesRange table 0 maxU64 (view.scanEntry table visit) a

end Store.ReadState

/-! ### Visiting in order -/

/-- **Visiting is a fold** over the merged list. -/
theorem visitEntries_eq {α : Type} (visit : ℕ → Option IndexValue → α → Reading α)
    (disk : List (ℕ × IndexValue)) (recent : List ℕ) (a : α) :
    visitEntries visit (disk.map .ok) recent a =
      (SortedList.merged disk recent).foldlM (fun a e => visit e.1 e.2 a) a := by
  fun_induction SortedList.merged disk recent generalizing a with
  | case1 =>
    rw [List.map_nil, visitEntries]
    rfl
  | case2 new recent ih =>
    rw [List.map_nil, visitEntries, List.foldlM_cons]
    exact congrArg _ (funext ih)
  | case3 old v entries ih =>
    rw [List.map_cons, visitEntries, List.foldlM_cons]
    exact congrArg _ (funext ih)
  | case4 old v entries new recent hlt ih =>
    rw [List.map_cons, visitEntries, if_pos hlt, List.foldlM_cons]
    exact congrArg _ (funext ih)
  | case5 old v entries new recent hlt hgt ih =>
    rw [List.map_cons, visitEntries, if_neg hlt, if_pos hgt, List.foldlM_cons]
    exact congrArg _ (funext ih)
  | case6 old v entries new recent hlt hgt ih =>
    rw [List.map_cons, visitEntries, if_neg hlt, if_neg hgt, List.foldlM_cons]
    exact congrArg _ (funext ih)

/-! ### What there is between two identifiers -/

/-- **The primary entries of a table in a view**: scans of the primary index return them, and
lookups find them. -/
structure Primary (view : ReadState) (table : ℕ) (entries : List (ℕ × IndexValue)) : Prop where
  ascending : SortedList.Ascending Prod.fst entries
  indexed : ∀ lower upper, view.indexed table lower upper =
    (entries.filter fun e => lower ≤ e.1 ∧ e.1 ≤ upper).map .ok
  locate : ∀ id, view.root.locate table id =
    .ok ((SortedList.lookup Prod.fst id entries).map Prod.snd)
  bounded : ∀ e ∈ entries, e.1 ≤ maxU64

/-- A primary entry under the identifier of its entity. -/
def byId (e : Entry) : ℕ × IndexValue := (e.1.1, e.2)

section ById

variable {entries : List Entry}

theorem ascending_byId (hzero : ∀ e ∈ entries, e.1.2 = 0)
    (h : SortedList.Ascending order entries) :
    SortedList.Ascending Prod.fst (entries.map byId) := by
  refine List.pairwise_map.mpr (h.imp_of_mem fun {a b} ha hb hlt => ?_)
  rcases Prod.Lex.toLex_lt_toLex.mp hlt with hlt | ⟨-, hlt⟩
  · exact hlt
  · rw [hzero a ha, hzero b hb] at hlt
    exact absurd hlt (lt_irrefl 0)

theorem range_byId (hzero : ∀ e ∈ entries, e.1.2 = 0) (lower upper : ℕ) :
    (SortedList.range order (toLex (lower, 0)) (toLex (upper, maxU64)) entries).map byId =
      (entries.map byId).filter fun e => lower ≤ e.1 ∧ e.1 ≤ upper := by
  rw [List.filter_map, SortedList.range]
  refine congrArg _ (List.filter_congr fun e he => decide_eq_decide.mpr ?_)
  rw [order, Prod.Lex.toLex_le_toLex', Prod.Lex.toLex_le_toLex', hzero e he]
  exact and_congr (and_iff_left fun _ => le_rfl) (and_iff_left fun _ => Nat.zero_le _)

theorem lookup_byId (hzero : ∀ e ∈ entries, e.1.2 = 0) (id : ℕ) :
    SortedList.lookup Prod.fst id (entries.map byId) =
      (SortedList.lookup order (toLex (id, 0)) entries).map byId := by
  rw [SortedList.lookup, List.find?_map, SortedList.lookup]
  refine congrArg _ (List.find?_congr fun e he => decide_eq_decide.mpr ?_)
  rw [order, toLex_inj, Prod.ext_iff, hzero e he]
  exact (and_iff_left rfl).symm

end ById

section Primary

variable {disk : Disk} {view : ReadState} {table : ℕ}

/-- What a scan of the primary index returns is known by its positions. -/
theorem scanIndex_eq (hreads : view.root.ReadsFrom disk)
    (htable : table ∈ view.root.manifest.catalog) {entries : List Entry}
    (hrouted : Routed view.root.manifest disk table 3 entries) (lower upper : Key) :
    view.root.files.scanIndex table 3 lower upper =
      (SortedList.range order (toLex lower) (toLex upper) entries).map .ok := by
  refine List.ext_getElem? fun n => (hreads.scan table htable 0 lower upper n).trans ?_
  rw [List.getElem?_map]
  exact hrouted.scanIndex lower upper n

/-- **The primary entries of a root that is reached.** -/
theorem Rooted.primary (h : Rooted disk view.root.manifest) (hreads : view.root.ReadsFrom disk)
    (table : ℕ) : ∃ entries, Primary view table entries := by
  by_cases htable : table ∈ view.root.manifest.catalog
  · obtain ⟨entries, hlisted⟩ := h.lists.listed table htable 0
    have hrouted : Routed view.root.manifest disk table 3 entries := hlisted.routed
    have hzero : ∀ e ∈ entries, e.1.2 = 0 := fun e he => (hlisted.primary rfl e he).1
    refine ⟨entries.map byId, ascending_byId hzero hrouted.ascending, fun lower upper => ?_,
      fun id => ?_, fun e he => ?_⟩
    · rw [ReadState.indexed, if_pos htable, scanIndex_eq hreads htable hrouted, List.map_map,
        ← range_byId hzero, List.map_map]
      rfl
    · have hlookup : view.root.files.lookupIndex table 3 (id, 0) =
          .ok ((SortedList.lookup order (toLex (id, 0)) entries).map Prod.snd) :=
        (hreads.lookup table htable 0 (id, 0)).trans (hrouted.lookupIndex (id, 0))
      rw [Checkpoint.locate, if_neg (not_not.mpr (by rwa [ExtTreeMap.contains_iff_mem])), hlookup,
        ok_bind, lookup_byId hzero]
      rcases hfound : SortedList.lookup order (toLex (id, 0)) entries with _ | e
      · rfl
      · obtain ⟨slot, hslot⟩ := (hlisted.primary rfl e (List.mem_of_find?_eq_some hfound)).2
        dsimp only [Option.map_some]
        rw [hslot]
        rfl
    · obtain ⟨e', he', rfl⟩ := List.mem_map.mp he
      exact Nat.le_of_lt_succ (hlisted.fits e' he').1
  · refine ⟨[], List.Pairwise.nil, fun lower upper => ?_, fun id => ?_, List.forall_mem_nil _⟩
    · rw [ReadState.indexed, if_neg htable]
      rfl
    · rw [Checkpoint.locate, if_pos (by rwa [ExtTreeMap.contains_iff_mem])]
      rfl

/-- The identifiers of the overlay come in order. -/
theorem recent_ascending (view : ReadState) (table lower upper : ℕ) :
    (view.recent table lower upper).Pairwise (· < ·) := by
  have hordered : view.overlay.keys.Pairwise fun a b => compare a b = .lt :=
    ExtTreeMap.ordered_keys
  refine List.pairwise_map.mpr ((hordered.filter _).imp_of_mem fun {a b} ha hb hlt => ?_)
  obtain ⟨hatable, -⟩ := of_decide_eq_true (List.mem_filter.mp ha).2
  obtain ⟨hbtable, -⟩ := of_decide_eq_true (List.mem_filter.mp hb).2
  -- within a table, keys are in the order of the identifiers
  have hthen : compare a b = (compare a.1 b.1).then (compare a.2 b.2) := rfl
  rw [hthen, hatable, hbtable, Nat.compare_eq_eq.mpr rfl] at hlt
  exact Nat.compare_eq_lt.mp hlt

/-- **What there is between two identifiers**: those on disk and in the overlay, each with what
the primary index has of it. -/
def Store.ReadState.present (view : ReadState) (entries : List (ℕ × IndexValue))
    (table lower upper : ℕ) :
    List (ℕ × Option IndexValue) :=
  SortedList.merged (entries.filter fun e => lower ≤ e.1 ∧ e.1 ≤ upper)
    (view.recent table lower upper)

section Present

variable {entries : List (ℕ × IndexValue)} (h : Primary view table entries) (lower upper : ℕ)

include h

theorem Primary.visitEntriesRange_eq {α : Type} (visit : ℕ → Option IndexValue → α → Reading α)
    (a : α) : view.visitEntriesRange table lower upper visit a =
      (view.present entries table lower upper).foldlM (fun a e => visit e.1 e.2 a) a := by
  rw [ReadState.visitEntriesRange, h.indexed, visitEntries_eq, ReadState.present]

theorem Primary.present_ascending :
    ((view.present entries table lower upper).map Prod.fst).Pairwise (· < ·) :=
  List.pairwise_map.mpr
    (SortedList.merged_ascending (h.ascending.filter _) (recent_ascending view table lower upper))

/-- What is on disk is what the root locates. -/
theorem Primary.exists_locate {id : ℕ} : id ∈ entries.map Prod.fst ↔
    ∃ value, view.root.locate table id = .ok (some value) := by
  rw [h.locate]
  constructor
  · intro hid
    obtain ⟨⟨id, value⟩, hmem, rfl⟩ := List.mem_map.mp hid
    exact ⟨value, by rw [h.ascending.lookup_eq_some.mpr ⟨hmem, rfl⟩]; rfl⟩
  · rintro ⟨value, hvalue⟩
    obtain ⟨e, hfound, -⟩ := Option.map_eq_some_iff.mp (Except.ok.inj hvalue)
    obtain ⟨hmem, rfl⟩ := h.ascending.lookup_eq_some.mp hfound
    exact List.mem_map_of_mem hmem

theorem Primary.mem_present {id : ℕ} :
    id ∈ (view.present entries table lower upper).map Prod.fst ↔ (lower ≤ id ∧ id ≤ upper) ∧
      ((table, id) ∈ view.overlay ∨ ∃ value, view.root.locate table id = .ok (some value)) := by
  rw [ReadState.present, SortedList.mem_keys_merged, mem_recent, ← h.exists_locate]
  constructor
  · rintro (hid | ⟨hmem, hwithin⟩)
    · obtain ⟨e, he, rfl⟩ := List.mem_map.mp hid
      obtain ⟨hmem, hwithin⟩ := List.mem_filter.mp he
      exact ⟨of_decide_eq_true hwithin, Or.inr (List.mem_map_of_mem hmem)⟩
    · exact ⟨hwithin, Or.inl hmem⟩
  · rintro ⟨hwithin, hmem | hid⟩
    · exact Or.inr ⟨hmem, hwithin⟩
    · obtain ⟨e, he, rfl⟩ := List.mem_map.mp hid
      exact Or.inl (List.mem_map_of_mem (List.mem_filter.mpr ⟨he, decide_eq_true hwithin⟩))

/-- What comes with an identifier is what the root locates. -/
theorem Primary.locate_present {e : ℕ × Option IndexValue}
    (he : e ∈ view.present entries table lower upper) :
    view.root.locate table e.1 = .ok e.2 := by
  have hwithin := ((h.mem_present lower upper).mp (List.mem_map_of_mem he)).1
  rw [h.locate, SortedList.mem_merged (h.ascending.filter _)
    (recent_ascending view table lower upper) he, SortedList.lookup, SortedList.lookup,
    List.find?_filter]
  refine congrArg (fun found => Except.ok (Option.map Prod.snd found))
    (List.find?_congr fun e' he' => ?_)
  by_cases heq : e'.1 = e.1
  · simp [heq, hwithin]
  · simp [heq]

end Present

end Primary

/-! ### Scanning -/

section Scan

variable {disk : Disk} {view : ReadState} {table : ℕ} {definition : Table}

/-- **What a read of an entity returns.** -/
theorem get_result (view : ReadState) (table id : ℕ) : (view.get table id).result = do
    let _ ← view.catalog.table table
    let current ←
      match view.overlay[(table, id)]? with
      | some data => .ok (some data.current)
      | none => (view.root.current table id).result
    return current.filter fun entity => ¬ entity.deleted := by
  rw [ReadState.get, Guarded.result_bind, Guarded.result_lift]
  rcases view.overlay[(table, id)]? with _ | data
  · refine congrArg _ (funext fun _ => ?_)
    exact Guarded.result_bind _ _
  · rfl

/-- What a scan does with what a read of an entity returns. -/
def scanned {α : Type} (visit : Entity → α → Reading α) (a : α) : Option Entity → Result α
  | none => .ok a
  | some entity => (visit entity a).result

/-- **Visiting an entity** does what a read of it returns. -/
theorem scanEntry_result {α : Type} {visit : Entity → α → Reading α} {id : ℕ}
    {locator : Option IndexValue} (htable : view.catalog.table table = .ok definition)
    (hlocate : view.root.locate table id = .ok locator)
    (hthere : (table, id) ∈ view.overlay ∨ ∃ value, locator = some value) (a : α) :
    (view.scanEntry table visit id locator a).result =
      (view.get table id).result >>= scanned visit a := by
  have hvisit (entity : Entity) :
      (if entity.deleted then pure a else visit entity a : Reading α).result =
        scanned visit a ((some entity).filter fun entity => ¬ entity.deleted) := by
    rw [Option.filter_some]
    cases entity.deleted <;> rfl
  rw [ReadState.scanEntry, Guarded.result_bind, get_result, htable, ok_bind]
  unfold ReadState.scannedEntity
  rcases hoverlay : view.overlay[(table, id)]? with _ | data
  · rcases hthere with hmem | ⟨value, rfl⟩
    · rw [ExtTreeMap.mem_iff_isSome_getElem?, hoverlay] at hmem
      cases hmem
    · dsimp only
      rw [Checkpoint.current, hlocate, Guarded.lift_ok_bind, Guarded.result_bind]
      rcases (view.root.state false table 0 value.1 id).result with e | entity
      · rfl
      · exact hvisit entity
  · exact hvisit data.current

variable {entries : List (ℕ × IndexValue)}

/-- **A scan** does on each entity there is what a read of it returns. -/
theorem Primary.scan_result (h : Primary view table entries)
    (htable : view.catalog.table table = .ok definition) {α : Type}
    (visit : Entity → α → Reading α) (a : α) :
    (view.scan table visit a).result =
      ((view.present entries table 0 maxU64).map Prod.fst).foldlM
        (fun a id => (view.get table id).result >>= scanned visit a) a := by
  rw [ReadState.scan, Guarded.result_bind, Guarded.result_lift, htable, ok_bind,
    h.visitEntriesRange_eq, Guarded.result_foldlM, List.foldlM_map]
  have hall : ∀ e ∈ view.present entries table 0 maxU64, ∀ a,
      (view.scanEntry table visit e.1 e.2 a).result =
        (view.get table e.1).result >>= scanned visit a := by
    intro e he a
    have hlocate := h.locate_present 0 maxU64 he
    refine scanEntry_result htable hlocate ?_ a
    rcases ((h.mem_present 0 maxU64).mp (List.mem_map_of_mem he)).2 with hmem | ⟨value, hvalue⟩
    · exact Or.inl hmem
    · exact Or.inr ⟨value, Except.ok.inj (hlocate.symm.trans hvalue)⟩
  generalize view.present entries table 0 maxU64 = there at hall
  induction there generalizing a with
  | nil => rfl
  | cons e there ih =>
    obtain ⟨he, hall⟩ := List.forall_mem_cons.mp hall
    rw [List.foldlM_cons, List.foldlM_cons, he]
    exact congrArg _ (funext fun a => ih a hall)

/-- **What a read returns** is there. -/
theorem Primary.mem_of_get (h : Primary view table entries) {id : ℕ} (hid : id ≤ maxU64)
    {entity : Entity} (hget : (view.get table id).result = .ok (some entity)) :
    id ∈ (view.present entries table 0 maxU64).map Prod.fst := by
  refine (h.mem_present 0 maxU64).mpr ⟨⟨Nat.zero_le _, hid⟩, ?_⟩
  by_contra hnowhere
  obtain ⟨hnew, hgone⟩ := not_or.mp hnowhere
  have hlocate : view.root.locate table id = .ok none := by
    rw [h.locate] at hgone ⊢
    rcases hfound : (SortedList.lookup Prod.fst id entries).map Prod.snd with _ | value
    · rfl
    · exact absurd ⟨value, by rw [hfound]⟩ hgone
  rw [get_result] at hget
  obtain ⟨_, -, hget⟩ := bind_eq_ok.mp hget
  rw [ExtTreeMap.getElem?_eq_none hnew] at hget
  dsimp only at hget
  rw [Checkpoint.current, hlocate] at hget
  cases hget

/-- What a fold over reads collects. -/
theorem collects {get : ℕ → Result (Option Entity)} {ids : List ℕ} {before entities : List Entity}
    (h : ids.foldlM (fun found id =>
      get id >>= scanned (fun entity found => pure (found ++ [entity])) found) before =
        .ok entities) :
    ∃ live new, live.Sublist ids ∧
      (∀ id, id ∈ live ↔ id ∈ ids ∧ ∃ entity, get id = .ok (some entity)) ∧
      List.Forall₂ (fun id entity => get id = .ok (some entity)) live new ∧
      entities = before ++ new := by
  induction ids generalizing before with
  | nil =>
    cases h
    exact ⟨[], [], .slnil, fun id => by simp, .nil, (List.append_nil _).symm⟩
  | cons id ids ih =>
    rw [List.foldlM_cons] at h
    obtain ⟨found, hfound, hrest⟩ := bind_eq_ok.mp h
    obtain ⟨read, hread, hscanned⟩ := bind_eq_ok.mp hfound
    obtain ⟨live, new, hsub, hall, hboth, rfl⟩ := ih hrest
    rcases read with _ | entity
    · cases hscanned
      refine ⟨live, new, hsub.cons id, fun id' => ?_, hboth, rfl⟩
      rw [hall, List.mem_cons]
      constructor
      · rintro ⟨hid', hlive⟩
        exact ⟨Or.inr hid', hlive⟩
      · rintro ⟨rfl | hid', entity, hentity⟩
        · cases hread.symm.trans hentity
        · exact ⟨hid', entity, hentity⟩
    · cases hscanned
      refine ⟨id :: live, entity :: new, hsub.cons_cons id, fun id' => ?_, .cons hread hboth,
        by rw [List.append_assoc, List.singleton_append]⟩
      rw [List.mem_cons, hall, List.mem_cons]
      constructor
      · rintro (rfl | ⟨hid', hlive⟩)
        · exact ⟨Or.inl rfl, entity, hread⟩
        · exact ⟨Or.inr hid', hlive⟩
      · rintro ⟨rfl | hid', hlive⟩
        · exact Or.inl rfl
        · exact Or.inr ⟨hid', hlive⟩

/-- Collects what a scan visits. -/
def collect (entity : Entity) (found : List Entity) : Reading (List Entity) :=
  return found ++ [entity]

/-- An entity that is in the overlay alone. -/
def recentData : EntityData where
  current := ⟨9, 0, 1, false, ∅⟩
  base := ⟨9, 0, 1, false, ∅⟩
  events := []
  committed := ∅
  snapshots := ∅
  disk := none

/-- **A scan asks for nothing** where all there is is in the overlay, and a read of what it visits
asks for the decoded bytes. -/
theorem exists_recent : ∃ (disk : Disk) (view : ReadState) (definition : Table),
    Rooted disk view.root.manifest ∧ view.root.ReadsFrom disk ∧
      view.catalog.table 1 = .ok definition ∧
      view.scan 1 collect [] = pure [recentData.current] ∧
      view.get 1 9 = (do
        Guarded.ask (.decoded (entityBytes recentData.current))
        return some recentData.current) := by
  have hrooted : Rooted (fun _ => none) Root.empty :=
    .create _ _ rfl fun _ => ExtTreeMap.not_mem_empty
  obtain ⟨files, hreads⟩ := hrooted.exists_files
  let view : ReadState := ⟨⟨Root.empty, files⟩, (∅ : BTreeMap Table).insert 1 ⟨1, "people", []⟩,
    (∅ : SortedMap _ _).insert (1, 9) recentData, 1⟩
  refine ⟨_, view, _, hrooted, hreads, rfl, ?_, rfl⟩
  have hindexed : view.indexed 1 0 maxU64 = [] := rfl
  have hrecent : view.recent 1 0 maxU64 = [9] := rfl
  have hscan : view.scan 1 collect [] =
      view.visitEntriesRange 1 0 maxU64 (view.scanEntry 1 collect) [] := rfl
  have hvisited := visitEntries_eq (view.scanEntry 1 collect) [] [9] []
  rw [SortedList.merged, SortedList.merged] at hvisited
  rw [hscan, ReadState.visitEntriesRange, hindexed, hrecent]
  exact hvisited

/-- A database may be opened with one byte of read memory. -/
def narrowOptions : Options :=
  { Options.default with limits := { Limits.default with maxReadMemoryBytes := 1 } }

example : narrowOptions.validate 0 = .ok () := by decide

/-- The entry of entity 7. -/
def builtEntry : Entry := ((7, 0), (0, 0))

/-- What is delivered for it. -/
def builtSteps : List (Fin 3 × Delivery) :=
  [(primaryIndex, .entry builtEntry.1 builtEntry.2 none)]

/-- The primary index with this entry. -/
def builtFile : FileId × Bytes := (⟨1, 1, 3, 0⟩, (Indexes.singleWriter 9 builtEntry).finishPart)

/-- A manifest with a table and these partitions. -/
def builtRoot (parts : SortedMap Route Partition) : Root :=
  { Root.empty with
    catalog := (∅ : BTreeMap Table).insert 1 ⟨1, "people", []⟩
    partitions := parts }

/-- A view of this manifest, with entity 9 in its overlay. -/
def builtView (parts : SortedMap Route Partition) (files : Files) : ReadState :=
  ⟨⟨builtRoot parts, files⟩, (builtRoot parts).catalog,
    (∅ : SortedMap (ℕ × ℕ) EntityData).insert (1, 9) recentData, 9⟩

theorem mem_builtRoot (parts : SortedMap Route Partition) (table : ℕ) :
    table ∈ (builtRoot parts).catalog ↔ table ∈ [1] := by
  rw [builtRoot, ExtTreeMap.mem_insert, List.mem_singleton, Nat.compare_eq_eq, eq_comm]
  exact or_iff_left ExtTreeMap.not_mem_empty

theorem sources_builtSteps : Sources Root.empty 1 builtSteps := by
  have hself : Indexes.delivered 0 builtSteps = [.entry builtEntry.1 builtEntry.2 none] :=
    Indexes.delivered_singleton_self
  have hother {i : Fin 3} (hi : i ≠ 0) : Indexes.delivered i builtSteps = [] :=
    Indexes.delivered_singleton_of_ne hi
  constructor
  · intro i
    by_cases hi : i = 0
    · rw [hi, hself]
      exact List.pairwise_singleton _ _
    · rw [hother hi]
      exact List.Pairwise.nil
  · intro i key value dependency hd
    by_cases hi : i = 0
    · rw [hi, hself] at hd
      cases List.mem_singleton.mp hd
      exact ⟨⟨by decide, by decide⟩, ⟨by decide, by decide⟩, fun _ => ⟨rfl, 0, rfl⟩⟩
    · rw [hother hi] at hd
      cases hd
  · intro i root lower part hd
    by_cases hi : i = 0
    · rw [hi, hself] at hd
      cases List.mem_singleton.mp hd
    · rw [hother hi] at hd
      cases hd

/-- **A build leads to such a manifest**, whose primary index has the entry and no other. -/
theorem exists_builtRoot : ∃ parts : SortedMap Route Partition,
    Rooted (Disk.write (fun _ => none) [builtFile]) (builtRoot parts) ∧
      Transparent (builtRoot parts) (Disk.write (fun _ => none) [builtFile]) 1 3 [builtEntry] := by
  obtain ⟨parts, hbuild⟩ : ∃ parts,
      Indexes.buildTables (fun _ => none) 1 9 8 [(1, builtSteps)] ∅ = .ok (parts, [builtFile]) :=
    ⟨_, rfl⟩
  have hsize : ∀ file ∈ [builtFile], file.2.length ≤ maxU64 :=
    List.forall_mem_singleton.mpr (Indexes.length_singleWriter 9 builtEntry)
  have hcreate : Rooted (fun _ => none) Root.empty :=
    .create _ _ rfl fun _ => ExtTreeMap.not_mem_empty
  have hnew : ∀ t ∈ [(1, builtSteps)], ∀ i,
      (fun _ => none : Disk) ⟨t.1, 1, Indexes.kind i, 0⟩ = none := fun _ _ _ => rfl
  have hsources : ∀ t ∈ [(1, builtSteps)], Sources Root.empty t.1 t.2 :=
    List.forall_mem_singleton.mpr sources_builtSteps
  refine ⟨parts, .build hcreate (by decide) (by decide) hsources hnew hbuild hsize rfl
    (mem_builtRoot parts), ?_⟩
  have horderly := fun t ht => hcreate.lists.orderly (hsources t ht)
  have hall := @Indexes.buildTables_built _ _ 1 9 8 _ ∅ (by decide) (by decide) horderly hnew
    (fun route hroute => absurd hroute ExtTreeMap.not_mem_empty)
  rcases hall with ⟨limit, -, herror, -⟩ | ⟨parts', written, hok, -, hfiles, hnodup, hbuilt⟩
  · cases hbuild.symm.trans herror
  · cases hbuild.symm.trans hok
    have hmem := List.mem_singleton_self (1, builtSteps)
    exact ((hbuilt _ hmem).routed (horderly _ hmem) hnew hfiles hnodup hsize
      (show (builtRoot parts).partitions = parts from rfl) 0).transparent

/-- The view finds entity 7 on disk, and no other. -/
theorem locate_builtView {parts : SortedMap Route Partition} {files : Files} {disk : Disk}
    (hreads : (⟨builtRoot parts, files⟩ : Checkpoint).ReadsFrom disk)
    (htransparent : Transparent (builtRoot parts) disk 1 3 [builtEntry]) (id : ℕ) :
    (builtView parts files).root.locate 1 id = .ok (if id = 7 then some (0, 0) else none) := by
  have hmem : 1 ∈ (builtRoot parts).catalog :=
    (mem_builtRoot parts 1).mpr (List.mem_singleton_self 1)
  have hlookup : (builtView parts files).root.files.lookupIndex 1 3 (id, 0) = _ :=
    (hreads.lookup 1 hmem 0 (id, 0)).trans (htransparent.lookup (id, 0))
  have hknown : (builtView parts files).root.manifest.catalog.contains 1 = true := by
    rwa [ExtTreeMap.contains_iff_mem]
  rw [Checkpoint.locate, if_neg (not_not.mpr hknown), hlookup, ok_bind, SortedList.lookup,
    List.find?_singleton]
  by_cases hid : id = 7
  · rw [if_pos hid, hid]
    rfl
  · rw [if_neg hid, if_neg]
    · rfl
    · rw [decide_eq_true_eq, order, toLex_inj]
      exact fun h => hid (congrArg Prod.fst h).symm

end Scan

end EveDB
