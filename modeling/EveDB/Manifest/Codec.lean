import EveDB.Manifest

/-!
# The manifest round trip

`Root.Valid` says of a manifest, table by table, what `Root.decode` checks: the
generation list ascends and ends in the root's own generation, every partition
lies in its bucket and names listed files only, every file belongs to a listed
generation or index, and no counter exceeds its total. A valid manifest that fits a
frame is read back exactly (`Root.Valid.decode_encode`).
-/

namespace EveDB

open Std

/-- What a partition must satisfy inside a manifest. -/
structure Partition.Valid (root : Root) (route : Route) (part : Partition) : Prop where
  table_mem : route.1 ∈ root.catalog
  kind_ge : 3 ≤ route.2.1
  kind_le : route.2.1 ≤ 5
  file_table : part.file.table = route.1
  file_kind : part.file.kind = route.2.1
  generation_le : part.file.generation ≤ root.generation
  lsn_le : part.lsn ≤ root.lsn
  first_le : compare part.first part.last ≠ .gt
  bucket_first : bucket route.2.1 part.first = route.2.2
  bucket_last : bucket route.2.1 part.last = route.2.2
  slots_eq : route.2.1 ≠ 3 → part.slots = ∅
  slots_ne : route.2.1 = 3 → part.slots ≠ ∅
  slot : ∀ (old new : ℕ), part.slots[old]? = some new → old < 2 ^ 8 ∧ new < root.generations.length
  dependency : ∀ f ∈ part.dependencies, f.table = route.1 ∧ (f.kind = 2 ∨ f.kind = 6) ∧
    f.generation < 2 ^ 64 ∧ f.segment < 2 ^ 64 ∧ f ∈ root.fileIds
  listed : ∃ info ∈ root.files, info.id = part.file ∧ part.base < info.size / pageSize
  segment_lt : part.file.segment < 2 ^ 64
  first_lt : part.first.1 < 2 ^ 64 ∧ part.first.2 < 2 ^ 64
  last_lt : part.last.1 < 2 ^ 64 ∧ part.last.2 < 2 ^ 64

/-- What a file reference must satisfy inside a manifest. -/
structure FileInfo.Valid (root : Root) (f : FileInfo) : Prop where
  table_mem : f.table ∈ root.catalog
  kind_le : f.kind ≤ 6
  segment_eq : f.kind < 3 → f.segment = 0
  history_mem : f.kind = 2 ∨ f.kind = 6 → f.generation ∈ root.historyGenerations
  index_mem : 3 ≤ f.kind → f.kind ≤ 5 → ∃ (route : Route) (part : Partition),
    root.partitions[route]? = some part ∧ part.file = f.id
  generation_mem : f.kind < 2 → ∃ g ∈ root.generations, g.generation = f.generation
  generation_lt : f.generation < 2 ^ 64
  segment_lt : f.segment < 2 ^ 64
  size_lt : f.size < 2 ^ 64
  crc_lt : f.crc < 2 ^ 32

/-- **A manifest whose tables agree with each other.** -/
structure Root.Valid (root : Root) : Prop where
  generation_lt : root.generation < 2 ^ 64
  lsn_lt : root.lsn < 2 ^ 64
  table : ∀ (id : ℕ) (t : Table), root.catalog[id]? = some t → t.Valid ∧ t.id = id
  name : ∀ (id : ℕ) (t : Table) (id' : ℕ) (t' : Table), root.catalog[id]? = some t →
    root.catalog[id']? = some t' → t.name = t'.name → id = id'
  ascending : root.generations.Pairwise fun g g' => g.generation < g'.generation
  last : root.generations.getLast?.map GenerationInfo.generation = some root.generation
  length_le : root.generations.length ≤ maxSlots
  generation_lsn : ∀ g ∈ root.generations, g.lsn < 2 ^ 64
  partition : ∀ (route : Route) (part : Partition), root.partitions[route]? = some part →
    part.Valid root route
  partition_root : ∀ (route : Route) (part : Partition) (route' : Route) (part' : Partition),
    root.partitions[route]? = some part → root.partitions[route']? = some part' →
    part.file = part'.file → part.base = part'.base → route = route'
  history : ∀ (g lsn : ℕ), root.historyGenerations[g]? = some lsn → g ≤ root.generation ∧
    lsn ≤ root.lsn
  file : ∀ f ∈ root.files, f.Valid root
  file_nodup : root.fileIds.Nodup
  occupancy : ∀ (table slot : ℕ) (o : Occupancy), root.occupancy[(table, slot)]? = some o →
    table ∈ root.catalog ∧ slot < root.generations.length ∧ o.dead ≤ o.entities ∧
      o.entities < 2 ^ 64

/-! ### Reading maps and sets back -/

namespace Reads

/-- **Reading a sorted map** entry by entry, when the body inserts a fresh key. -/
theorem countedMap {κ α : Type} [Ord κ] [TransOrd κ] [LawfulEqOrd κ] {minimumBytes : ℕ}
    {body : SortedMap κ α → Decoder (SortedMap κ α)} {item : κ × α → Bytes} (m : SortedMap κ α)
    (hlen : m.toList.length < 2 ^ 64)
    (hmin : ∀ k v, m[k]? = some v → max minimumBytes 1 ≤ (item (k, v)).length)
    (hbody : ∀ (acc : SortedMap κ α) k v, m[k]? = some v → k ∉ acc →
      Reads (body acc) (item (k, v)) (acc.insert k v)) :
    Reads (Decoder.counted minimumBytes body ∅) (Encoder.list item m.toList) m := by
  have h := counted minimumBytes body item m.toList
    (fun l => ExtTreeMap.ofList l compare) hlen
    (fun e he => hmin e.1 e.2 (ExtTreeMap.mem_toList_iff_getElem?_eq_some.mp he))
    (fun before e after heq => by
      rw [SortedMap.ofList_append_singleton before e.1 e.2]
      refine hbody _ e.1 e.2 (ExtTreeMap.mem_toList_iff_getElem?_eq_some.mp ?_)
        (SortedMap.not_mem_ofList_of_toList heq)
      rw [heq]
      simp)
  rwa [SortedMap.ofList_toList, ExtTreeMap.ofList_nil] at h

/-- **Reading a sorted set** element by element, when the body inserts a fresh one. -/
theorem countedSet {κ : Type} [Ord κ] [TransOrd κ] [LawfulEqOrd κ] [DecidableEq κ]
    {minimumBytes : ℕ} {body : SortedSet κ → Decoder (SortedSet κ)} {item : κ → Bytes}
    (m : SortedSet κ) (hlen : m.toList.length < 2 ^ 64)
    (hmin : ∀ k ∈ m, max minimumBytes 1 ≤ (item k).length)
    (hbody : ∀ (acc : SortedSet κ) k, k ∈ m → k ∉ acc →
      Reads (body acc) (item k) (acc.insert k)) :
    Reads (Decoder.counted minimumBytes body ∅) (Encoder.list item m.toList) m := by
  have h := counted minimumBytes body item m.toList
    (fun l => ExtTreeSet.ofList l compare) hlen
    (fun k hk => hmin k (ExtTreeSet.mem_toList.mp hk))
    (fun before k after heq => by
      rw [SortedMap.setOfList_append_singleton before k]
      refine hbody _ k (ExtTreeSet.mem_toList.mp ?_) (SortedMap.not_mem_setOfList_of_toList heq)
      rw [heq]
      simp)
  rwa [SortedMap.setOfList_toList, ExtTreeSet.ofList_nil] at h

end Reads

/-- The bytes of a list are at least as many as its items. -/
theorem length_le_of_list {α : Type} (item : α → Bytes) (items : List α)
    (h : ∀ a ∈ items, 1 ≤ (item a).length) : items.length ≤ (Encoder.list item items).length := by
  have := Encoder.length_mul_le h
  simp only [Encoder.list, List.length_append]
  omega

/-! ### The tables of a manifest -/

section Tables

variable {root : Root} (h : root.Valid)

include h

/-- The catalog is read back. -/
theorem reads_catalog (hlen : root.catalog.toList.length < 2 ^ 64) :
    ∃ names, Reads (Decoder.counted 25 decodeCatalogEntry ([], ∅))
      (Encoder.list (fun entry => encodeTable entry.2) root.catalog.toList)
      (names, root.catalog) := by
  have hget : ∀ e ∈ root.catalog.toList, root.catalog[e.1]? = some e.2 :=
    fun e he => ExtTreeMap.mem_toList_iff_getElem?_eq_some.mp he
  have hread := Reads.counted 25 decodeCatalogEntry
    (fun entry : ℕ × Table => encodeTable entry.2) root.catalog.toList
    (fun l => ((l.map fun e => e.2.name).reverse, ExtTreeMap.ofList l compare)) hlen
    (fun e he => by
      have := (h.table e.1 e.2 (hget e he)).1.le_length_encode
      omega)
    (fun before e after heq => by
      have he : e ∈ root.catalog.toList := by simp [heq]
      obtain ⟨hvalid, hid⟩ := h.table e.1 e.2 (hget e he)
      have hfresh : e.2.id ∉ (ExtTreeMap.ofList before compare : BTreeMap Table) :=
        hid ▸ SortedMap.not_mem_ofList_of_toList (k := e.1) (v := e.2) heq
      have hname : e.2.name ∉ (before.map fun e => e.2.name).reverse := by
        simp only [List.mem_reverse, List.mem_map, not_exists, not_and]
        intro e' he' hsame
        have hget' := hget e' (by simp [heq, he'])
        have hkey := h.name _ _ _ _ hget' (hget e he) hsame
        refine SortedMap.not_mem_ofList_of_toList (k := e.1) (v := e.2) heq ?_
        exact SortedMap.mem_ofList.mpr ⟨e'.2, hkey ▸ he'⟩
      rw [SortedMap.ofList_append_singleton before e.1 e.2, List.map_append, List.reverse_append]
      refine (Table.reads hvalid).bind_last (Reads.ite_neg (not_or.mpr ⟨hname, hfresh⟩) ?_)
      rw [hid]
      exact Reads.pure _)
  refine ⟨(root.catalog.toList.map fun e => e.2.name).reverse, ?_⟩
  rwa [SortedMap.ofList_toList, List.map_nil, List.reverse_nil, ExtTreeMap.ofList_nil] at hread

/-- The generation list is read back. -/
theorem reads_generations : Reads (Decoder.counted 16 decodeGeneration [])
    (Encoder.list encodeGeneration root.generations) root.generations := by
  have hlen : root.generations.length < 2 ^ 64 := h.length_le.trans_lt (by decide)
  refine Reads.counted _ _ _ root.generations (fun l => l) hlen
    (fun g _ => by simp [encodeGeneration]) fun before g after heq => ?_
  have hg : g ∈ root.generations := by simp [heq]
  have hasc := h.ascending
  have hlast : g.generation ≤ root.generation := by
    have hl := h.last
    rw [heq] at hasc hl
    rw [List.pairwise_append, List.pairwise_cons] at hasc
    cases hafter : after.getLast? with
    | none =>
      rw [List.getLast?_eq_none_iff.mp hafter] at hl
      simp only [List.getLast?_append, List.getLast?_singleton, Option.some_or, Option.map_some,
        Option.some.injEq] at hl
      exact hl.le
    | some x =>
      have hx := hasc.2.1.1 x (List.mem_of_getLast? hafter)
      simp only [List.getLast?_append, List.getLast?_cons, hafter, Option.getD_some,
        Option.some_or, Option.map_some, Option.some.injEq] at hl
      omega
  have horder : ¬ ∃ previous ∈ before.getLast?, g.generation ≤ previous.generation := by
    rintro ⟨p, hp, hle⟩
    rw [heq, List.pairwise_append] at hasc
    have := hasc.2.2 p (List.mem_of_getLast? hp) g List.mem_cons_self
    omega
  refine (Reads.u64 (hlast.trans_lt h.generation_lt)).bind ?_
  exact (Reads.u64 (h.generation_lsn g hg)).bind_last (Reads.ite_neg horder (Reads.pure _))

/-- The history generations are read back. -/
theorem reads_history (hlen : root.historyGenerations.toList.length < 2 ^ 64) :
    Reads (Decoder.counted 16 (decodeHistoryGeneration root.generation root.lsn) ∅)
      (Encoder.list encodeHistoryGeneration root.historyGenerations.toList)
      root.historyGenerations := by
  refine Reads.countedMap root.historyGenerations hlen
    (fun g l _ => by simp [encodeHistoryGeneration]) fun acc g l hget hfresh => ?_
  obtain ⟨hg, hl⟩ := h.history g l hget
  refine (Reads.u64 (hg.trans_lt h.generation_lt)).bind ?_
  refine (Reads.u64 (hl.trans_lt h.lsn_lt)).bind_last (Reads.ite_neg ?_ (Reads.pure _))
  exact fun hc => hc.elim (by omega) fun hc => hc.elim (by omega) hfresh

/-- The occupancy counters are read back. -/
theorem reads_occupancy (hlen : root.occupancy.toList.length < 2 ^ 64)
    (htable : ∀ id ∈ root.catalog, id < 2 ^ 64) :
    Reads (Decoder.counted 25 (decodeOccupancy root.catalog root.generations.length) ∅)
      (Encoder.list encodeOccupancy root.occupancy.toList) root.occupancy := by
  refine Reads.countedMap root.occupancy hlen
    (fun k o _ => by simp [encodeOccupancy]) fun acc k o hget hfresh => ?_
  obtain ⟨htab, hslot, hdead, hent⟩ := h.occupancy k.1 k.2 o hget
  have hslots := h.length_le
  have hslot' : k.2 < 2 ^ 8 := hslot.trans_le hslots
  refine (Reads.u64 (htable _ htab)).bind ((Reads.u8 hslot').bind ?_)
  refine (Reads.u64 hent).bind ((Reads.u64 (hdead.trans_lt hent)).bind_last ?_)
  refine Reads.ite_neg ?_ (Reads.pure _)
  rintro (hc | hc | hc | hc)
  · exact hc htab
  · omega
  · omega
  · exact hfresh hc

/-- What the partition table amounts to after the entries `l`. -/
def partitionTable (l : List (Route × Partition)) : PartitionTable where
  partitions := ExtTreeMap.ofList l compare
  indexFiles := ExtTreeSet.ofList (l.map fun e => e.2.file) compare
  indexRoots := (l.map fun e => (e.2.file, e.2.base)).reverse

omit h in
/-- The files of a valid partition, with the numbers it is stored in. -/
theorem Partition.Valid.base_lt {route : Route} {part : Partition} (hp : part.Valid root route)
    (hfile : ∀ f ∈ root.files, f.Valid root) : part.base < 2 ^ 64 := by
  obtain ⟨info, hinfo, -, hbase⟩ := hp.listed
  have := (hfile info hinfo).size_lt
  exact hbase.trans ((Nat.div_le_self _ _).trans_lt this)

/-- A partition is read back into the table. -/
theorem reads_partition {before after : List (Route × Partition)} {e : Route × Partition}
    (heq : root.partitions.toList = before ++ e :: after)
    (htable : ∀ id ∈ root.catalog, id < 2 ^ 64)
    (hslots : e.2.slots.toList.length < 2 ^ 64)
    (hdeps : e.2.dependencies.toList.length < 2 ^ 64) :
    Reads (decodePartition root.generation root.lsn root.catalog root.generations
      (partitionTable before)) (encodePartition e) (partitionTable (before ++ [e])) := by
  obtain ⟨⟨table, kind, lower⟩, part⟩ := e
  have hget : ∀ x ∈ root.partitions.toList, root.partitions[x.1]? = some x.2 :=
    fun x hx => ExtTreeMap.mem_toList_iff_getElem?_eq_some.mp hx
  have hmem : ((table, kind, lower), part) ∈ root.partitions.toList := by simp [heq]
  have hp : part.Valid root (table, kind, lower) := h.partition _ _ (hget _ hmem)
  have hfileId : part.file = ⟨table, part.file.generation, kind, part.file.segment⟩ := by
    have htable' : part.file.table = table := hp.file_table
    have hkind' : part.file.kind = kind := hp.file_kind
    rw [← htable', ← hkind']
  have hlower : lower.1 < 2 ^ 64 ∧ lower.2 < 2 ^ 64 := by
    have hb := hp.bucket_first
    have h1 := hp.first_lt.1
    have h2 := hp.first_lt.2
    simp only [bucket] at hb
    split at hb <;> rw [← hb] <;> dsimp only
    · exact ⟨(Nat.div_mul_le_self _ _).trans_lt h1, by decide⟩
    · exact ⟨h1, (Nat.div_mul_le_self _ _).trans_lt h2⟩
  have hkind : kind < 2 ^ 8 := by have := hp.kind_le; simp only at this; omega
  have hgen : part.file.generation < 2 ^ 64 := hp.generation_le.trans_lt h.generation_lt
  have hslotsRead : Reads (Decoder.counted 2 (decodeSlot root.generations.length) ∅)
      (Encoder.list encodeSlot part.slots.toList) part.slots := by
    refine Reads.countedMap part.slots hslots (fun o n _ => by simp [encodeSlot])
      fun acc o n hget' hfresh => ?_
    obtain ⟨ho, hn⟩ := hp.slot o n hget'
    have hn' : n < 2 ^ 8 := hn.trans_le h.length_le
    refine (Reads.u8 ho).bind ((Reads.u8 hn').bind_last (Reads.ite_neg ?_ (Reads.pure _)))
    exact fun hc => hc.elim (by omega) hfresh
  have hdepsRead : Reads (Decoder.counted 25 (decodeDependency table) ∅)
      (Encoder.list encodeFileId part.dependencies.toList) part.dependencies := by
    refine Reads.countedSet part.dependencies hdeps (fun f _ => by simp [encodeFileId])
      fun acc f hf hfresh => ?_
    obtain ⟨hft, hfk, hfg, hfs, -⟩ := hp.dependency f hf
    have hfk' : f.kind < 2 ^ 8 := by omega
    refine (Reads.u64 (hft ▸ htable _ hp.table_mem)).bind ((Reads.u64 hfg).bind
      ((Reads.u8 hfk').bind ((Reads.u64 hfs).bind_last (Reads.ite_neg ?_ (Reads.pure _)))))
    rintro (hc | hc | hc)
    · exact hc hft
    · exact hc hfk
    · exact hfresh hc
  refine (Reads.u64 (htable _ hp.table_mem)).bind ((Reads.u8 hkind).bind
    ((Reads.u64 hlower.1).bind ((Reads.u64 hlower.2).bind ((Reads.u64 hgen).bind
    ((Reads.u64 hp.segment_lt).bind ((Reads.u64 (hp.lsn_le.trans_lt h.lsn_lt)).bind
    ((Reads.u64 (hp.base_lt h.file)).bind ((Reads.u64 hp.first_lt.1).bind
    ((Reads.u64 hp.first_lt.2).bind ((Reads.u64 hp.last_lt.1).bind ((Reads.u64 hp.last_lt.2).bind
    (hslotsRead.bind (hdepsRead.bind_last ?_)))))))))))))
  refine Reads.ite_neg ?_ (Reads.ite_neg ?_ ?_)
  · rintro (hc | hc | hc | hc | hc | hc | hc | hc | hc | hc)
    · exact hc hp.table_mem
    · exact hc ⟨hp.kind_ge, hp.kind_le⟩
    · exact absurd hp.generation_le (Nat.not_le.mpr hc)
    · exact absurd hp.lsn_le (Nat.not_le.mpr hc)
    · exact hp.first_le hc
    · exact hc hp.bucket_first
    · exact hc hp.bucket_last
    · rw [hp.slots_eq hc.1] at hc
      simp at hc
    · exact hp.slots_ne hc.1 (ExtTreeMap.isEmpty_iff.mp hc.2)
    · rw [← hfileId] at hc
      simp only [partitionTable, List.mem_reverse, List.mem_map, Prod.mk.injEq] at hc
      obtain ⟨x, hx, hxf, hxb⟩ := hc
      have hxm : x ∈ root.partitions.toList := by simp [heq, hx]
      have hroute : x.1 = (table, kind, lower) :=
        h.partition_root _ _ _ _ (hget x hxm) (hget _ hmem) hxf hxb
      refine SortedMap.not_mem_ofList_of_toList heq (SortedMap.mem_ofList.mpr ⟨x.2, ?_⟩)
      rw [← hroute]
      exact hx
  · exact SortedMap.not_mem_ofList_of_toList heq
  · rw [← hfileId]
    have := Reads.pure (partitionTable (before ++ [((table, kind, lower), part)]))
    simp only [partitionTable, List.map_append, List.map_cons, List.map_nil,
      SortedMap.ofList_append_singleton, SortedMap.setOfList_append_singleton,
      List.reverse_append, List.reverse_cons, List.reverse_nil, List.nil_append,
      List.singleton_append] at this ⊢
    exact this

/-- The partitions are read back, with the set of the files they lie in. -/
theorem reads_partitions (hlen : root.partitions.toList.length < 2 ^ 64)
    (htable : ∀ id ∈ root.catalog, id < 2 ^ 64)
    (hslots : ∀ e ∈ root.partitions.toList, e.2.slots.toList.length < 2 ^ 64)
    (hdeps : ∀ e ∈ root.partitions.toList, e.2.dependencies.toList.length < 2 ^ 64) :
    Reads (Decoder.counted 105
        (decodePartition root.generation root.lsn root.catalog root.generations) ⟨∅, ∅, []⟩)
      (Encoder.list encodePartition root.partitions.toList)
      (partitionTable root.partitions.toList) := by
  have hread := Reads.counted 105
    (decodePartition root.generation root.lsn root.catalog root.generations) encodePartition
    root.partitions.toList partitionTable hlen
    (fun e _ => by
      obtain ⟨⟨table, kind, lower⟩, part⟩ := e
      simp [encodePartition, Encoder.list]
      omega)
    (fun before e after heq => by
      have he : e ∈ root.partitions.toList := by simp [heq]
      exact reads_partition h heq htable (hslots e he) (hdeps e he))
  have hempty : partitionTable [] = ⟨∅, ∅, []⟩ := by
    simp [partitionTable]
  rwa [hempty] at hread

/-- The file references are read back. -/
theorem reads_files (hlen : root.files.length < 2 ^ 64)
    (htable : ∀ id ∈ root.catalog, id < 2 ^ 64) :
    Reads (Decoder.counted 37 (decodeFileInfo root.catalog root.generations
        (partitionTable root.partitions.toList).indexFiles root.historyGenerations) [])
      (Encoder.list encodeFileInfo root.files) root.files := by
  refine Reads.counted _ _ _ root.files (fun l => l) hlen (fun f _ => by simp [encodeFileInfo])
    fun before f after heq => ?_
  have hf := h.file f (by simp [heq])
  have hkind : f.kind < 2 ^ 8 := by have := hf.kind_le; omega
  have hnew : f.id ∉ before.map FileInfo.id := by
    have hnodup := h.file_nodup
    rw [Root.fileIds, heq, List.map_append, List.map_cons, List.nodup_append] at hnodup
    exact fun hmem => hnodup.2.2 _ hmem _ List.mem_cons_self rfl
  refine (Reads.u64 hf.generation_lt).bind ((Reads.u64 (htable _ hf.table_mem)).bind
    ((Reads.u8 hkind).bind ((Reads.u64 hf.segment_lt).bind ((Reads.u64 hf.size_lt).bind
    ((Reads.u32 hf.crc_lt).bind_last (Reads.ite_neg ?_ (Reads.pure _)))))))
  rintro (hc | hc | hc | hc | hc)
  · exact hc hf.table_mem
  · exact absurd hf.kind_le (by omega)
  · exact hc.2 (hf.segment_eq hc.1)
  · split at hc
    · next hk => exact hc (hf.history_mem hk)
    · split at hc
      · next hk =>
        obtain ⟨route, part, hget, hfile⟩ := hf.index_mem hk.1 hk.2
        refine hc (SortedMap.mem_setOfList.mpr (List.mem_map.mpr ⟨(route, part), ?_, hfile⟩))
        exact ExtTreeMap.mem_toList_iff_getElem?_eq_some.mpr hget
      · obtain ⟨g, hg, hgen⟩ := hf.generation_mem (by have := hf.kind_le; omega)
        exact hc (List.any_eq_true.mpr ⟨g, hg, by simpa using hgen⟩)
  · exact hnew hc

/-- The files of all partitions are listed. -/
theorem checkPartitions_eq_ok :
    checkPartitions root.files (root.partitions.toList.map Prod.snd) = .ok () := by
  have hall : ∀ part ∈ root.partitions.toList.map Prod.snd,
      ∃ route, part.Valid root route := by
    intro part hpart
    obtain ⟨e, he, rfl⟩ := List.mem_map.mp hpart
    exact ⟨e.1, h.partition _ _ (ExtTreeMap.mem_toList_iff_getElem?_eq_some.mp he)⟩
  generalize root.partitions.toList.map Prod.snd = parts at hall
  induction parts with
  | nil => rfl
  | cons part parts ih =>
    obtain ⟨route, hp⟩ := hall part List.mem_cons_self
    obtain ⟨info, hinfo, hid, hbase⟩ := hp.listed
    have hlisted : root.files.any
        (fun info => info.id = part.file ∧ part.base < info.size / pageSize) = true :=
      List.any_eq_true.mpr ⟨info, hinfo, by simpa using ⟨hid, hbase⟩⟩
    have hcomplete : (part.file :: part.dependencies.toList).any
        (· ∉ root.files.map FileInfo.id) = false := by
      rw [List.any_eq_false]
      intro f hf
      have : f ∈ root.fileIds := by
        rcases List.mem_cons.mp hf with rfl | hf
        · exact List.mem_map.mpr ⟨info, hinfo, hid⟩
        · exact (hp.dependency f (ExtTreeSet.mem_toList.mp hf)).2.2.2.2
      simpa [Root.fileIds] using this
    rw [checkPartitions, hlisted, hcomplete]
    simpa using ih fun p hp => hall p (List.mem_cons_of_mem part hp)

end Tables

/-- The numbers of entries in the tables of a manifest are machine words. -/
structure Root.Sized (root : Root) : Prop where
  catalog : root.catalog.toList.length < 2 ^ 64
  partitions : root.partitions.toList.length < 2 ^ 64
  slots : ∀ e ∈ root.partitions.toList, e.2.slots.toList.length < 2 ^ 64
  dependencies : ∀ e ∈ root.partitions.toList, e.2.dependencies.toList.length < 2 ^ 64
  history : root.historyGenerations.toList.length < 2 ^ 64
  files : root.files.length < 2 ^ 64
  occupancy : root.occupancy.toList.length < 2 ^ 64

/-- A manifest that fits a frame has few entries. -/
theorem Root.Valid.sized {root : Root} (h : root.Valid)
    (hsize : root.encode.length < 2 ^ 64) : root.Sized := by
  simp only [Root.encode, List.length_append, Encoder.length_u64, Encoder.length_bool] at hsize
  have hcatalog := length_le_of_list (fun entry : ℕ × Table => encodeTable entry.2)
    root.catalog.toList fun e he => by
      have := (h.table e.1 e.2
        (ExtTreeMap.mem_toList_iff_getElem?_eq_some.mp he)).1.le_length_encode
      omega
  have hparts := length_le_of_list encodePartition root.partitions.toList
    fun e _ => by simp [encodePartition]; omega
  have hpart : ∀ e ∈ root.partitions.toList, (Encoder.list encodeSlot e.2.slots.toList).length +
      (Encoder.list encodeFileId e.2.dependencies.toList).length < 2 ^ 64 := by
    intro e he
    have hitem := Encoder.length_item_le encodePartition he
    simp only [encodePartition, List.length_append] at hitem
    omega
  refine ⟨by omega, by omega, fun e he => ?_, fun e he => ?_, ?_, ?_, ?_⟩
  · have := length_le_of_list encodeSlot e.2.slots.toList
      fun _ _ => by simp [encodeSlot]
    have := hpart e he
    omega
  · have := length_le_of_list encodeFileId e.2.dependencies.toList
      fun _ _ => by simp [encodeFileId]
    have := hpart e he
    omega
  · have := length_le_of_list encodeHistoryGeneration root.historyGenerations.toList
      fun _ _ => by simp [encodeHistoryGeneration]
    omega
  · have := length_le_of_list encodeFileInfo root.files
      fun _ _ => by simp [encodeFileInfo]
    omega
  · have := length_le_of_list encodeOccupancy root.occupancy.toList
      fun _ _ => by simp [encodeOccupancy]
    omega

/-- **A valid manifest that fits a frame is read back exactly.** -/
theorem Root.Valid.decode_encode {root : Root} (h : root.Valid)
    (hsize : root.encode.length ≤ maxFrame) : Root.decode root.encode = .ok root := by
  have hs := h.sized (hsize.trans_lt (by decide))
  have htable : ∀ id ∈ root.catalog, id < 2 ^ 64 := by
    intro id hid
    obtain ⟨hvalid, heq⟩ := h.table id _ (ExtTreeMap.getElem?_eq_some_getElem hid)
    exact heq ▸ hvalid.id_lt
  obtain ⟨names, hnames⟩ := reads_catalog h hs.catalog
  have hgenerations : ¬ (maxSlots < root.generations.length ∨
      root.generations.getLast?.map GenerationInfo.generation ≠ some root.generation) := by
    rintro (hc | hc)
    · exact absurd h.length_le (by omega)
    · exact hc h.last
  have hcheck : Reads (StateT.lift (checkPartitions root.files
      ((partitionTable root.partitions.toList).partitions.toList.map Prod.snd)) : Decoder Unit)
      [] () := by
    intro rest
    rw [partitionTable, SortedMap.ofList_toList, checkPartitions_eq_ok h]
    rfl
  have hresult : ({ root with
      partitions := (partitionTable root.partitions.toList).partitions } : Root) = root := by
    rw [partitionTable, SortedMap.ofList_toList]
  have hlast : Reads (do
      let occupancy ← Decoder.counted 25 (decodeOccupancy root.catalog root.generations.length) ∅
      return ({ root with
        partitions := (partitionTable root.partitions.toList).partitions, occupancy } : Root))
      (Encoder.list encodeOccupancy root.occupancy.toList) root := by
    refine (reads_occupancy h hs.occupancy htable).bind_last ?_
    rw [hresult]
    exact Reads.pure root
  refine Reads.decode ((Reads.u64 h.generation_lt).bind ((Reads.u64 h.lsn_lt).bind
    (hnames.bind ((reads_generations h).bind (Reads.ite_neg hgenerations
    ((reads_partitions h hs.partitions htable hs.slots hs.dependencies).bind
    ((Reads.bool _ _).bind ((reads_history h hs.history).bind
    ((reads_files h hs.files htable).bind (hcheck.bind hlast))))))))))

/-- The root of a new database is valid. -/
theorem Root.valid_empty : Root.empty.Valid where
  generation_lt := by decide
  lsn_lt := by decide
  table id t h := by simp [Root.empty] at h
  name id t id' t' h := by simp [Root.empty] at h
  ascending := List.pairwise_singleton _ _
  last := rfl
  length_le := by decide
  generation_lsn g hg := by
    rw [List.mem_singleton.mp hg]
    decide
  partition route part h := by simp [Root.empty] at h
  partition_root route part route' part' h := by simp [Root.empty] at h
  history g lsn h := by simp [Root.empty] at h
  file f hf := by simp [Root.empty] at hf
  file_nodup := List.nodup_nil
  occupancy table slot o h := by simp [Root.empty] at h

theorem Root.length_encode_empty : Root.empty.encode.length = 81 := by
  simp [Root.encode, Root.empty, Encoder.list, encodeGeneration]

theorem Root.decode_encode_empty : Root.decode Root.empty.encode = .ok Root.empty :=
  Root.valid_empty.decode_encode (by rw [Root.length_encode_empty]; decide)

end EveDB
