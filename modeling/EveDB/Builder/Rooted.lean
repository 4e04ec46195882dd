import EveDB.Builder.Delivered

/-!
# The roots an engine reaches

A root is reached from the empty one by building: each build delivers the entries of the indexes
in order, or takes over partitions of the root before it with its slots translated
(`Sources`), and files that no partition of a root names may come and go (`Rooted`).

Every index of such a root is routed (`Rooted.routed`): its partitions hold one sorted list, and
the entries of a primary index lie under the identifiers of the entities, each with both its
locators in one generation.
-/

namespace EveDB

open Store Index Indexes

open Std (ExtTreeMap)

/-- **What a build delivers to the indexes of a table**: entries of its own, in order, and whole
partitions of the root it starts from. -/
structure Sources (root : Root) (table : ℕ) (steps : List (Fin 3 × Delivery)) : Prop where
  ordered : ∀ i, (delivered i steps).Pairwise (Delivery.Before (kind i))
  entry : ∀ i key value dependency, .entry key value dependency ∈ delivered i steps →
    Fits key ∧ Fits value ∧ (kind i = 3 → key.2 = 0 ∧ ∃ slot, entitySlot value = .ok slot)
  reuse : ∀ i earlierRoot lower part, .reuse earlierRoot lower part ∈ delivered i steps →
    earlierRoot = root ∧ (∃ info ∈ root.files, info.id = part.file) ∧
      ∃ absorb generation lsn generations slots earlier,
        root.rebuildSlots absorb generation lsn = .ok (generations, slots) ∧
        root.partitions[((table, kind i, lower) : Route)]? = some earlier ∧
        earlier.carry slots = .ok part

/-- **A root that builds lead to**, with what its directory holds. -/
inductive Rooted : Disk → Root → Prop
  | create (disk : Disk) (root : Root) (hparts : root.partitions = ∅)
      (htables : ∀ table, table ∉ root.catalog) : Rooted disk root
  | build {disk : Disk} {root next : Root} (h : Rooted disk root)
      {generation lsn limit : ℕ} {tables : List (ℕ × List (Fin 3 × Delivery))}
      {parts : SortedMap Route Partition} {written : List (FileId × Bytes)} (hlsn : lsn < 2 ^ 64)
      (hdistinct : (tables.map Prod.fst).Nodup)
      (hsources : ∀ t ∈ tables, Sources root t.1 t.2)
      (hnew : ∀ t ∈ tables, ∀ i, disk ⟨t.1, generation, kind i, 0⟩ = none)
      (hbuild : buildTables disk generation lsn limit tables ∅ = .ok (parts, written))
      (hsize : ∀ file ∈ written, file.2.length ≤ maxU64) (hparts : next.partitions = parts)
      (htables : ∀ table, table ∈ next.catalog ↔ table ∈ tables.map Prod.fst) :
      Rooted (disk.write written) next
  | files {disk disk' : Disk} {root : Root} (h : Rooted disk root)
      (hkept : ∀ (route : Route) (part : Partition), root.partitions[route]? = some part →
        disk' part.file = disk part.file) : Rooted disk' root

/-! ### What a partition shows -/

section Shown

variable {disk : Disk} {part : Partition}

/-- **A tree has one list of entries.** -/
theorem answers_unique {bytes : Bytes} {lsn base : ℕ} {entries entries' : List Entry}
    (h : IndexWriter.Answers bytes lsn base entries)
    (h' : IndexWriter.Answers bytes lsn base entries')
    (hascending : SortedList.Ascending order entries)
    (hascending' : SortedList.Ascending order entries') : entries = entries' := by
  have hsub {l l' : List Entry} (h : IndexWriter.Answers bytes lsn base l)
      (h' : IndexWriter.Answers bytes lsn base l') (hl : SortedList.Ascending order l)
      (hl' : SortedList.Ascending order l') {e : Entry} (he : e ∈ l) : e ∈ l' := by
    have hfound := Except.ok.inj ((h.lookup e.1).symm.trans (h'.lookup e.1))
    have hself : SortedList.lookup order (toLex e.1) l = some e :=
      hl.lookup_eq_some.mpr ⟨he, rfl⟩
    rw [hself, Option.map_some] at hfound
    obtain ⟨e', hfound', hvalue⟩ := Option.map_eq_some_iff.mp hfound.symm
    obtain ⟨hmem, hkey⟩ := hl'.lookup_eq_some.mp hfound'
    obtain rfl : e' = e := Prod.ext (toLex_inj.mp hkey) hvalue
    exact hmem
  exact hascending.ext hascending' fun e =>
    ⟨hsub h h' hascending hascending', hsub h' h hascending' hascending⟩

open Classical in
/-- The entries a partition shows. -/
noncomputable def shownEntries (disk : Disk) (part : Partition) : List Entry :=
  if h : ∃ kind lower entries, part.Shows disk kind lower entries then
    h.choose_spec.choose_spec.choose
  else []

/-- **A partition shows one list of entries.** -/
theorem Partition.Shows.unique {kind kind' : ℕ} {lower lower' : Key} {entries entries' : List Entry}
    (h : part.Shows disk kind lower entries) (h' : part.Shows disk kind' lower' entries') :
    entries = entries' := by
  obtain ⟨stored, bytes, hdisk, hanswers, rfl, -⟩ := h.stored
  obtain ⟨stored', bytes', hdisk', hanswers', rfl, -⟩ := h'.stored
  obtain rfl : bytes = bytes' := Option.some.inj (hdisk.symm.trans hdisk')
  have hascending {l : List Entry} (hl : SortedList.Ascending order (l.map part.shownEntry)) :
      SortedList.Ascending order l :=
    (List.pairwise_map.mp hl).imp fun hlt => by
      rwa [Partition.order_shownEntry, Partition.order_shownEntry] at hlt
  rw [answers_unique hanswers hanswers' (hascending h.ascending) (hascending h'.ascending)]

theorem shownEntries_eq {kind : ℕ} {lower : Key} {entries : List Entry}
    (h : part.Shows disk kind lower entries) : shownEntries disk part = entries := by
  have hany : ∃ kind lower entries, part.Shows disk kind lower entries := ⟨kind, lower, entries, h⟩
  rw [shownEntries, dif_pos hany]
  exact hany.choose_spec.choose_spec.choose_spec.unique h

end Shown

/-! ### What is listed -/

/-- **What an index of a root lists**: entries that it routes, with the primary ones under the
identifiers of entities and in one generation each. -/
structure Listed (disk : Disk) (root : Root) (table : ℕ) (i : Fin 3) (entries : List Entry) :
    Prop where
  routed : Routed root disk table (kind i) entries
  fits : ∀ e ∈ entries, Fits e.1
  primary : kind i = 3 → ∀ e ∈ entries, e.1.2 = 0 ∧ ∃ slot, entitySlot e.2 = .ok slot

/-- A partition shows the same in every directory with its file. -/
theorem Partition.Shows.of_file {disk disk' : Disk} {part : Partition} {k : ℕ} {lower : Key}
    {entries : List Entry} (h : part.Shows disk k lower entries)
    (hfile : disk' part.file = disk part.file) : part.Shows disk' k lower entries := by
  obtain ⟨stored, bytes, hdisk, hrest⟩ := h.stored
  exact ⟨⟨stored, bytes, hfile.trans hdisk, hrest⟩, h.ascending, h.bucket, h.first, h.last, h.kind,
    h.slots⟩

section Build

variable {disk : Disk} {root : Root} {table : ℕ} {steps : List (Fin 3 × Delivery)}

/-- A partition of a root is of one of its tables, and every index of these is listed. -/
structure Lists (disk : Disk) (root : Root) : Prop where
  tables : ∀ route ∈ root.partitions, route.1 ∈ root.catalog
  listed : ∀ table ∈ root.catalog, ∀ i, ∃ entries, Listed disk root table i entries

/-- A partition that is taken over, with what it lists. -/
theorem Lists.earlier (h : Lists disk root) {i : Fin 3} {lower : Key} {earlier : Partition}
    (hpart : root.partitions[((table, kind i, lower) : Route)]? = some earlier) :
    ∃ entries, earlier.Shows disk (kind i) lower entries ∧ (∀ e ∈ entries, Fits e.1) ∧
      (kind i = 3 → ∀ e ∈ entries, e.1.2 = 0 ∧ ∃ slot, entitySlot e.2 = .ok slot) := by
  have hmem : ((table, kind i, lower) : Route) ∈ root.partitions :=
    ExtTreeMap.mem_iff_isSome_getElem?.mpr (by rw [hpart]; rfl)
  obtain ⟨entries, hlisted⟩ := h.listed table (h.tables _ hmem) i
  exact ⟨_, hlisted.routed.shows lower earlier hpart,
    fun e he => hlisted.fits e (List.mem_of_mem_filter he),
    fun hkind e he => hlisted.primary hkind e (List.mem_of_mem_filter he)⟩

/-- **What a build delivers is orderly.** -/
theorem Lists.orderly (h : Lists disk root) (hsources : Sources root table steps) :
    Orderly disk (shownEntries disk) table steps := by
  refine ⟨hsources.ordered, fun i d hd => ?_⟩
  rcases d with ⟨key, value, dependency⟩ | ⟨earlierRoot, lower, part⟩
  · obtain ⟨hkey, hvalue, hprimary⟩ := hsources.entry i key value dependency hd
    exact ⟨hkey, hvalue, fun hkind => (hprimary hkind).2⟩
  · obtain ⟨rfl, hfile, absorb, generation, lsn, generations, slots, earlier, hrebuild, hpart,
      hcarry⟩ := hsources.reuse i earlierRoot lower part hd
    obtain ⟨entries, hshows, -⟩ := h.earlier hpart
    exact ⟨hfile, absorb, generation, lsn, generations, slots, earlier, entries, hrebuild, hpart,
      hshows, hcarry, shownEntries_eq (hshows.carry hrebuild hcarry)⟩

/-- **What is delivered to an index** keeps the form of its entries. -/
theorem Lists.delivered (h : Lists disk root) (hsources : Sources root table steps) (i : Fin 3)
    {e : Entry} (he : e ∈ (Indexes.delivered i steps).flatMap (·.entries (shownEntries disk))) :
    Fits e.1 ∧ (kind i = 3 → e.1.2 = 0 ∧ ∃ slot, entitySlot e.2 = .ok slot) := by
  obtain ⟨d, hd, he⟩ := List.mem_flatMap.mp he
  rcases d with ⟨key, value, dependency⟩ | ⟨earlierRoot, lower, part⟩
  · obtain ⟨hkey, -, hprimary⟩ := hsources.entry i key value dependency hd
    obtain rfl := List.mem_singleton.mp he
    exact ⟨hkey, hprimary⟩
  · obtain ⟨rfl, -, absorb, generation, lsn, generations, slots, earlier, hrebuild, hpart,
      hcarry⟩ := hsources.reuse i earlierRoot lower part hd
    obtain ⟨entries, hshows, hfits, hprimary⟩ := h.earlier hpart
    rw [Delivery.entries, shownEntries_eq (hshows.carry hrebuild hcarry)] at he
    obtain ⟨e', he', rfl⟩ := List.mem_map.mp he
    rw [Partition.carryEntry]
    split
    · next hkind =>
      -- the entry goes to the slot its generation has in the next manifest
      have hslot : (newSlot slots (splitLocator e'.2.1).1).getD 0 < 2 ^ 8 := by
        rcases hnew : newSlot slots (splitLocator e'.2.1).1 with _ | new
        · exact Nat.two_pow_pos 8
        · exact (rebuildSlots_newSlot hrebuild hnew).2.1
      exact ⟨hfits e' he', fun _ => ⟨(hprimary hkind e' he').1, _, entitySlot_remap e'.2 hslot⟩⟩
    · next hkind => exact ⟨hfits e' he', fun h => absurd h hkind⟩

end Build

/-- **Every index of a root that is reached is listed.** -/
theorem Rooted.lists {disk : Disk} {root : Root} (h : Rooted disk root) : Lists disk root := by
  induction h with
  | create disk root hparts htables =>
    refine ⟨fun route hroute => ?_, fun table htable => absurd htable (htables table)⟩
    rw [hparts] at hroute
    exact absurd hroute ExtTreeMap.not_mem_empty
  | @build disk root next h generation lsn limit tables parts written hlsn hdistinct hsources hnew
      hbuild hsize hparts htables ih =>
    have horderly (t : ℕ × List (Fin 3 × Delivery)) (ht : t ∈ tables) :
        Orderly disk (shownEntries disk) t.1 t.2 := ih.orderly (hsources t ht)
    have hall := @buildTables_built disk (shownEntries disk) generation lsn limit tables ∅ hlsn
      hdistinct horderly hnew (fun route hroute => absurd hroute ExtTreeMap.not_mem_empty)
    rcases hall with ⟨limit', -, herror, -⟩ |
      ⟨parts', written', hok, hkept, hfiles, hnodup, hbuilt⟩
    · rw [hbuild] at herror
      cases herror
    obtain ⟨rfl, rfl⟩ := Prod.mk.inj (Except.ok.inj (hbuild.symm.trans hok))
    refine ⟨fun route hroute => (htables _).mpr ?_, fun table htable i => ?_⟩
    · by_contra hother
      rw [hparts, ExtTreeMap.mem_iff_isSome_getElem?, hkept route hother,
        ExtTreeMap.getElem?_empty] at hroute
      cases hroute
    · obtain ⟨t, ht, rfl⟩ := List.mem_map.mp ((htables _).mp htable)
      have hrouted := (hbuilt t ht).routed (horderly t ht) hnew hfiles hnodup hsize hparts i
      exact ⟨_, hrouted, fun e he => (ih.delivered (hsources t ht) i he).1,
        fun hkind e he => (ih.delivered (hsources t ht) i he).2 hkind⟩
  | @files disk disk' root h hkept ih =>
    refine ⟨ih.tables, fun table htable i => ?_⟩
    obtain ⟨entries, hrouted, hfits, hprimary⟩ := ih.listed table htable i
    exact ⟨entries, ⟨hrouted.ascending, fun lower part hpart =>
      (hrouted.shows lower part hpart).of_file (hkept _ part hpart), hrouted.covered⟩, hfits,
      hprimary⟩

end EveDB
