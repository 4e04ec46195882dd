import EveDB.Builder.Tally

/-!
# Counting over all tables

What a table leaves behind when it is finished: files of its own that were not there, and a primary
index with the entries it was told (`Complete`). The counters of the table say how many of these
name each slot, as long as they did so before (`Underway.balanced`). Over the tables of a pass this
is kept one table at a time (`Tabled.visitTable`), beginning with the counters of the generations
that stay (`getElem?_keptOccupancy`).
-/

namespace EveDB

open Std Store Index Indexes FullTableWriter

/-! ### What a table leaves in the directory -/

section Finished

variable {disk : Disk} {ix : Indexes} {files : List FileInfo} {parts : SortedMap Route Partition}
  {built : List (FileId × Bytes)}

/-- The descriptions of the index files of a table. -/
theorem foldl_insert_eq (l : List (FileId × Bytes)) (info : FileId × Bytes → FileInfo)
    (m : SortedMap FileId FileInfo) :
    l.foldl (fun files written => files.insert written.1 (info written)) m =
      m.insertMany (l.map fun written => (written.1, info written)) := by
  induction l generalizing m with
  | nil => rfl
  | cons written l ih => rw [List.foldl_cons, ih, List.map_cons, ExtTreeMap.insertMany_cons]

/-- **What finished indexes leave**: files of their table that were not there, and descriptions of
the files of all partitions, each of them taken along or written. -/
theorem Indexes.Formed.finish (h : ix.Formed disk)
    (hok : ix.finish = .ok (files, parts, built)) :
    ∃ ix', ix'.Formed disk ∧ Same ix ix' ∧ parts = ix'.parts ∧ built = ix'.built ∧
      (∀ file ∈ built, ∃ i, file.1 = ix.file i ∧ disk file.1 = none) ∧
      (∀ (route : Route) (part : Partition), parts[route]? = some part →
        ∃ info ∈ files, info.id = part.file) ∧
      ∀ info ∈ files, (∃ file : FileId, ix.files[file]? = some info) ∨
        info.id ∈ built.map Prod.fst := by
  obtain ⟨ix₀, ix₁, ix', h₀, h₁, h₂, rfl, rfl, rfl⟩ := finish_eq_ok hok
  obtain ⟨hformed₀, hapart₀, hfiles₀⟩ := h.flush h₀
  obtain ⟨hformed₁, hapart₁, hfiles₁⟩ := hformed₀.flush h₁
  obtain ⟨hformed, hapart₂, hfiles₂⟩ := hformed₁.flush h₂
  have hsame := (hapart₀.same.trans hapart₁.same).trans hapart₂.same
  have hbuilt : ∀ file ∈ ix'.built, ∃ i, file.1 = ix'.file i ∧ disk file.1 = none := by
    intro file hfile
    obtain ⟨i, hhandle, hid⟩ := mem_built_iff.mp hfile
    exact ⟨i, hid.symm, hid ▸ hformed.created i (Or.inl (by rw [hhandle]; rfl))⟩
  refine ⟨ix', hformed, hsame, rfl, rfl, fun file hfile => ?_, fun route part hpart => ?_,
    fun info hinfo => ?_⟩
  · obtain ⟨i, hid, hnone⟩ := hbuilt file hfile
    exact ⟨i, hid.trans (hsame.file i), hnone⟩
  · rw [foldl_insert_eq]
    have hmem : part.file ∈ ix'.files.insertMany (ix'.built.map fun written => (written.1,
        { generation := ix'.generation, table := ix'.table, kind := written.1.kind, segment := 0,
          size := written.2.length, crc := (crc32c written.2).toNat : FileInfo })) := by
      rw [SortedMap.mem_insertMany]
      refine (hformed.parts route part hpart).imp id ?_
      rintro ⟨i, hfile, hopen⟩
      obtain ⟨bytes, hbytes⟩ := Option.isSome_iff_exists.mp hopen
      rw [hfile, List.map_map]
      exact List.mem_map.mpr ⟨_, mem_built hbytes, rfl⟩
    obtain ⟨info, hinfo⟩ := Option.isSome_iff_exists.mp (ExtTreeMap.mem_iff_isSome_getElem?.mp hmem)
    refine ⟨info, List.mem_map.mpr ⟨_, ExtTreeMap.mem_toList_iff_getElem?_eq_some.mpr hinfo, rfl⟩,
      ?_⟩
    rcases SortedMap.of_getElem?_insertMany hinfo with hnew | hold
    · obtain ⟨written, hwritten, heq⟩ := List.mem_map.mp hnew
      obtain ⟨hid, rfl⟩ := Prod.mk.inj heq
      obtain ⟨i, hfile, -⟩ := hbuilt written hwritten
      rw [← hid, hfile]
      rfl
    · exact hformed.files _ _ hold
  · obtain ⟨⟨file, _⟩, hmem, rfl⟩ := List.mem_map.mp hinfo
    have hfound := ExtTreeMap.mem_toList_iff_getElem?_eq_some.mp hmem
    rw [foldl_insert_eq] at hfound
    rcases SortedMap.of_getElem?_insertMany hfound with hnew | hold
    · obtain ⟨written, hwritten, heq⟩ := List.mem_map.mp hnew
      obtain ⟨-, rfl⟩ := Prod.mk.inj heq
      obtain ⟨i, hfile, -⟩ := hbuilt written hwritten
      refine Or.inr (List.mem_map.mpr ⟨written, hwritten, ?_⟩)
      rw [hfile]
      rfl
    · rw [hfiles₂, hfiles₁, hfiles₀] at hold
      exact Or.inl ⟨file, hold⟩

/-- **The files that indexes take partitions from.** -/
theorem Indexes.Formed.files_deliverAll {here : FileInfo → Prop} {ix' : Indexes}
    {steps : List (Fin 3 × Delivery)} (h : ix.Formed disk)
    (hfrom : ∀ step ∈ steps, step.2.From here)
    (hhere : ∀ (file : FileId) (info : FileInfo), ix.files[file]? = some info → here info)
    (hok : Indexes.deliverAll disk steps ix = .ok ix') :
    ∀ (file : FileId) (info : FileInfo), ix'.files[file]? = some info → here info := by
  induction steps generalizing ix with
  | nil =>
    cases hok
    exact hhere
  | cons step steps ih =>
    obtain ⟨i, d⟩ := step
    obtain ⟨hd, hfrom⟩ := List.forall_mem_cons.mp hfrom
    rw [Indexes.deliverAll] at hok
    obtain ⟨ix₁, hdeliver, hok⟩ := bind_eq_ok.mp hok
    refine ih (h.deliver hdeliver).1 hfrom (fun file info hinfo => ?_) hok
    cases d with
    | entry key value dependency =>
      obtain ⟨-, -, hfiles, -⟩ := h.append hdeliver
      exact hhere file info (hfiles ▸ hinfo)
    | reuse root lower part =>
      rw [Indexes.deliver, Indexes.reuse] at hdeliver
      obtain ⟨ix₂, hflush, hdeliver⟩ := bind_eq_ok.mp hdeliver
      obtain ⟨-, -, hfiles⟩ := h.flush hflush
      obtain ⟨_, -, hdeliver⟩ := bind_eq_ok.mp hdeliver
      split at hdeliver
      · cases hdeliver
      · next taken htaken =>
        split at hdeliver
        · cases hdeliver
        · cases hdeliver
          change (ix₂.files.insert taken.id taken)[file]? = some info at hinfo
          rw [ExtTreeMap.getElem?_insert] at hinfo
          split at hinfo
          · cases hinfo
            exact hd _ (List.mem_of_find?_eq_some htaken)
          · exact hhere file info (hfiles ▸ hinfo)

variable {here : FileInfo → Prop} {storage : Storage} {options : TableOptions} {table limit n : ℕ}
  {w₀ w : FullTableWriter} {steps : List (Fin 3 × Delivery)} {output : TableOutput}

/-- The indexes of a table behind some steps. -/
theorem FullTableWriter.Created.indexed (h : w₀.Created disk options table limit)
    (hdid : w₀.Did disk here w steps n) : w.indexes.Formed disk ∧
      Same (.new table options.generation options.lsn limit) w.indexes := by
  have hformed := formed_new disk table options.generation options.lsn limit
  have hdelivered := hdid.indexes
  rw [h.indexes] at hdelivered
  obtain ⟨hformed, hsame, -⟩ := hformed.deliverAll hdelivered
  exact ⟨hformed, hsame⟩

/-- **The partitions of a table** are its own, and their files are listed, each of them taken along
or written. -/
theorem FullTableWriter.Created.partitions (h : w₀.Created disk options table limit)
    (hdid : w₀.Did disk here w steps n) (hok : w.finish storage = .ok output) :
    (∀ route ∈ output.partitions, route.1 = table) ∧
      (∀ (route : Route) (part : Partition), output.partitions[route]? = some part →
        ∃ info ∈ output.files, info.id = part.file) ∧
      ∀ info ∈ output.files, here info ∨ info.id ∈ output.written.map Prod.fst := by
  obtain ⟨indexFiles, partitions, built, hfinish, -, rfl⟩ := finish_eq_ok hok
  obtain ⟨hformed, hsame⟩ := h.indexed hdid
  obtain ⟨ix', -, hsame', rfl, -, -, hlisted, hfiles⟩ := hformed.finish hfinish
  replace hsame := hsame.trans hsame'
  refine ⟨fun route hroute => ?_, fun route part hpart => ?_, fun info hinfo => ?_⟩
  · exact (hsame.tables (fun route hroute => absurd hroute ExtTreeMap.not_mem_empty) route
      hroute).trans hsame.table
  · obtain ⟨info, hinfo, hid⟩ := hlisted route part hpart
    exact ⟨info, List.mem_append_left _ (List.mem_append_right _ hinfo), hid⟩
  · rcases List.mem_append.mp hinfo with hinfo | hinfo
    · rcases List.mem_append.mp hinfo with hinfo | hinfo
      · obtain ⟨⟨file, _⟩, hmem, rfl⟩ := List.mem_map.mp hinfo
        have hreused : w₀.Reuses here := fun file info hinfo => by
          rw [h.reused, ExtTreeMap.getElem?_empty] at hinfo
          cases hinfo
        exact Or.inl (hdid.reused hreused file _
          (ExtTreeMap.mem_toList_iff_getElem?_eq_some.mp hmem)).2
      · rcases hfiles info hinfo with ⟨file, hfile⟩ | hbuilt
        · have hindexes := hdid.indexes
          rw [h.indexes] at hindexes
          refine Or.inl
            ((formed_new disk table options.generation options.lsn limit).files_deliverAll
            hdid.sources (fun file info hinfo => ?_) hindexes file info hfile)
          rw [Indexes.new, ExtTreeMap.getElem?_empty] at hinfo
          cases hinfo
        · rw [List.map_append, List.map_append]
          exact Or.inr (List.mem_append_left _ (List.mem_append_left _ hbuilt))
    · obtain ⟨file, hfile, rfl⟩ := List.mem_map.mp hinfo
      refine Or.inr (List.mem_map.mpr ⟨file, ?_, rfl⟩)
      rcases List.mem_append.mp hfile with hfile | hfile
      · exact List.mem_append_left _ (List.mem_append_right _ hfile)
      · exact List.mem_append_right _ hfile

/-- **What a table writes**: new files of its own, which the directory can hold. -/
theorem FullTableWriter.Created.written (h : w₀.Created disk options table limit)
    (hdid : w₀.Did disk here w steps n) (hok : w.finish storage = .ok output) :
    (output.written.map Prod.fst).Nodup ∧ ∀ file ∈ output.written, file.1.table = table ∧
      file.1.generation = options.generation ∧ disk file.1 = none ∧ file.2.length < 2 ^ 53 := by
  obtain ⟨indexFiles, partitions, built, hfinish, hsize, rfl⟩ := finish_eq_ok hok
  obtain ⟨hformed, hsame⟩ := h.indexed hdid
  have htable : w.indexes.table = table := hsame.table
  have hgeneration : w.indexes.generation = options.generation := hsame.generation
  obtain ⟨ix', -, -, -, rfl, hbuilt, -, -⟩ := hformed.finish hfinish
  have hsegmented := hdid.segments h.segmented
  have hwtable : w.table = table := hdid.table.trans h.table_eq
  have hwgeneration : w.generation = options.generation := hdid.generation.trans h.generation_eq
  have hheap (kind : ℕ) : w.heapFile kind = ⟨table, options.generation, kind, 0⟩ := by
    rw [heapFile, hwtable, hwgeneration]
  have hsegment : ∀ file ∈ w.segments, ∃ segment,
      file.1 = ⟨table, options.generation, 6, segment⟩ := by
    intro file hfile
    have hmem : file.1 ∈ w.segments.map Prod.fst := List.mem_map_of_mem hfile
    rw [hsegmented.names] at hmem
    obtain ⟨segment, -, hid⟩ := List.mem_map.mp hmem
    rw [TableWriter.historyFile, hwtable, hwgeneration] at hid
    exact ⟨segment, hid.symm⟩
  have hindex : ∀ file ∈ ix'.built, ∃ i : Fin 3,
      file.1 = ⟨table, options.generation, kind i, 0⟩ ∧ disk file.1 = none := by
    intro file hfile
    obtain ⟨i, hid, hnone⟩ := hbuilt file hfile
    rw [Indexes.file, htable, hgeneration] at hid
    exact ⟨i, hid, hnone⟩
  have hheaps : ∀ file ∈ w.heaps, ∃ kind ∈ [0, 1, 2],
      file.1 = ⟨table, options.generation, kind, 0⟩ := by
    refine List.forall_mem_cons.mpr ⟨⟨0, by decide, hheap 0⟩, List.forall_mem_cons.mpr
      ⟨⟨1, by decide, hheap 1⟩, List.forall_mem_singleton.mpr ⟨2, by decide, hheap 2⟩⟩⟩
  refine ⟨?_, fun file hfile => ?_⟩
  · rw [List.map_append, List.map_append]
    refine ((nodup_built ix').append ?_ ?_).append ?_ ?_
    · rw [show w.heaps.map Prod.fst = [w.heapFile 0, w.heapFile 1, w.heapFile 2] from rfl, hheap,
        hheap, hheap]
      simp
    · intro id hleft hright
      obtain ⟨file, hfile, rfl⟩ := List.mem_map.mp hleft
      obtain ⟨file', hfile', hsame⟩ := List.mem_map.mp hright
      obtain ⟨i, hid, -⟩ := hindex file hfile
      obtain ⟨kind', hkind, hid'⟩ := hheaps file' hfile'
      rw [hid, hid'] at hsame
      have hkinds : kind' = kind i := congrArg FileId.kind hsame
      rw [hkinds, kind] at hkind
      simp at hkind
    · rw [hsegmented.names]
      refine (List.nodup_range).map fun segment segment' heq => ?_
      exact congrArg FileId.segment heq
    · intro id hleft hright
      obtain ⟨file', hfile', hsame⟩ := List.mem_map.mp hright
      obtain ⟨segment, hid'⟩ := hsegment file' hfile'
      rw [← hsame, hid'] at hleft
      rcases List.mem_append.mp hleft with hleft | hleft
      · obtain ⟨file, hfile, hid⟩ := List.mem_map.mp hleft
        obtain ⟨i, hid', -⟩ := hindex file hfile
        rw [hid'] at hid
        have hkinds : kind i = 6 := congrArg FileId.kind hid
        rw [kind] at hkinds
        omega
      · obtain ⟨file, hfile, hid⟩ := List.mem_map.mp hleft
        obtain ⟨kind', hkind, hid'⟩ := hheaps file hfile
        rw [hid'] at hid
        have hkinds : kind' = 6 := congrArg FileId.kind hid
        rw [hkinds] at hkind
        simp at hkind
  · have hlength := hsize file hfile
    rcases List.mem_append.mp hfile with hfile | hfile
    · rcases List.mem_append.mp hfile with hfile | hfile
      · obtain ⟨i, hid, hnone⟩ := hindex file hfile
        exact ⟨by rw [hid], by rw [hid], hnone, hlength⟩
      · obtain ⟨kind', hkind, hid⟩ := hheaps file hfile
        exact ⟨by rw [hid], by rw [hid], hid ▸ h.heaps kind' hkind, hlength⟩
    · obtain ⟨segment, hid⟩ := hsegment file hfile
      exact ⟨by rw [hid], by rw [hid], hsegmented.new file hfile, hlength⟩

/-- **An index of a finished table** has what was delivered to it. -/
theorem FullTableWriter.Created.idle {shows : Partition → List Entry}
    (h : w₀.Created disk options table limit) (hdid : w₀.Did disk here w steps n)
    (hlsn : options.lsn < 2 ^ 64) {i : Fin 3}
    (hordered : (delivered i steps).Pairwise (Delivery.Before (kind i)))
    (hsound : ∀ d ∈ delivered i steps, d.Sound disk shows table (kind i))
    (hok : w.indexes.finish = .ok (files, parts, built)) :
    ∃ ix' old, Idle disk shows ix' i (delivered i steps) old ∧ ix'.table = table ∧
      parts = ix'.parts ∧ built = ix'.built := by
  obtain ⟨hformed, hsame⟩ := h.indexed hdid
  have htable : w.indexes.table = table := hsame.table
  have hlsn' : w.indexes.lsn = options.lsn := hsame.lsn
  obtain ⟨old, opened, hstart⟩ :=
    (delivering_new disk shows table options.generation options.lsn limit).lanes i
  rw [← h.indexes] at hstart
  have hnew : w₀.indexes.table = table ∧ w₀.indexes.lsn = options.lsn := by
    rw [h.indexes]
    exact ⟨rfl, rfl⟩
  have hformed₀ := formed_new disk table options.generation options.lsn limit
  rw [← h.indexes] at hformed₀
  obtain ⟨old', opened', hlane⟩ := hstart.deliverAll hformed₀ (hnew.2.symm ▸ hlsn)
    hordered (hnew.1.symm ▸ hsound) hdid.indexes
  obtain ⟨ix₀, ix₁, ix', h₀, h₁, h₂, rfl, rfl, -⟩ := Indexes.finish_eq_ok hok
  obtain ⟨old'', hidle⟩ := hlane.finish hformed (hlsn'.symm ▸ hlsn) (htable.symm ▸ hsound) h₀ h₁ h₂
  obtain ⟨hformed₀, hapart₀, -⟩ := hformed.flush h₀
  obtain ⟨hformed₁, hapart₁, -⟩ := hformed₀.flush h₁
  obtain ⟨-, hapart₂, -⟩ := hformed₁.flush h₂
  exact ⟨ix', old'', hidle,
    ((hapart₀.same.trans hapart₁.same).trans hapart₂.same).table.trans htable, rfl, rfl⟩

end Finished

/-! ### A table -/

/-- The records that are stored in a heap file of a table. -/
def recordsIn (written : List (FileId × Bytes)) (options : TableOptions) (table kind : ℕ)
    (location : ℕ) (bytes : Bytes) : Prop :=
  ∃ file, (⟨table, options.generation, kind, 0⟩, file) ∈ written ∧
    HeapWriter.HasFile (UInt64.ofNat options.lsn) file location bytes

/-- **The output of a table**: partitions of its own, whose files are listed, and new files of its
own, its heap files among them. -/
structure TableOutput.Belongs (disk : Disk) (here : FileInfo → Prop) (options : TableOptions)
    (table : ℕ) (output : TableOutput) : Prop where
  routes : ∀ route ∈ output.partitions, route.1 = table
  files : ∀ (route : Route) (part : Partition), output.partitions[route]? = some part →
    ∃ info ∈ output.files, info.id = part.file
  present : ∀ info ∈ output.files, here info ∨ info.id ∈ output.written.map Prod.fst
  heaps : ∀ kind ∈ [0, 1], ⟨table, options.generation, kind, 0⟩ ∈ output.files.map FileInfo.id
  nodup : (output.written.map Prod.fst).Nodup
  written : ∀ file ∈ output.written, file.1.table = table ∧
    file.1.generation = options.generation ∧ disk file.1 = none ∧ file.2.length < 2 ^ 53

section Output

variable {disk : Disk} {here : FileInfo → Prop} {storage : Storage} {options : TableOptions}
  {table limit n : ℕ} {w₀ w : FullTableWriter} {steps : List (Fin 3 × Delivery)}
  {output : TableOutput}

/-- The heap files of a table carry its number and that of the generation. -/
theorem FullTableWriter.Created.heapFile_eq (h : w₀.Created disk options table limit)
    (hdid : w₀.Did disk here w steps n) (kind : ℕ) :
    w.heapFile kind = ⟨table, options.generation, kind, 0⟩ := by
  rw [heapFile, hdid.table.trans h.table_eq, hdid.generation.trans h.generation_eq]

theorem FullTableWriter.Created.belongs (h : w₀.Created disk options table limit)
    (hdid : w₀.Did disk here w steps n) (hok : w.finish storage = .ok output) :
    output.Belongs disk here options table := by
  obtain ⟨hroutes, hfiles, hpresent⟩ := h.partitions hdid hok
  obtain ⟨hnodup, hwritten⟩ := h.written hdid hok
  refine ⟨hroutes, hfiles, hpresent, fun kind hkind => ?_, hnodup, hwritten⟩
  have hmem : w.heapFile kind ∈ w.heaps.map Prod.fst := by
    rcases List.mem_pair.mp hkind with rfl | rfl
    · exact List.mem_cons_self
    · exact List.mem_cons_of_mem _ List.mem_cons_self
  obtain ⟨file, hfile, hid⟩ := List.mem_map.mp hmem
  obtain ⟨indexFiles, -, -, -, -, rfl⟩ := finish_eq_ok hok
  refine List.mem_map.mpr ⟨fileInfo file, List.mem_append_right _ ?_,
    hid.trans (h.heapFile_eq hdid kind)⟩
  exact List.mem_map_of_mem (List.mem_append_left _ hfile)

/-- **The records of a table** are in the heap files it writes. -/
theorem FullTableWriter.Created.records (h : w₀.Created disk options table limit)
    (hdid : w₀.Did disk here w steps n) (hok : w.finish storage = .ok output) (location : ℕ)
    (bytes : Bytes) :
    (w.current.Has location bytes → recordsIn output.written options table 0 location bytes) ∧
      (w.bases.Has location bytes → recordsIn output.written options table 1 location bytes) := by
  have hheaps : ∀ file ∈ w.heaps, file ∈ output.written := by
    obtain ⟨-, -, built, -, -, rfl⟩ := finish_eq_ok hok
    exact fun file hfile => List.mem_append_left _ (List.mem_append_right built hfile)
  have hcurrent : UInt64.ofNat options.lsn = w.current.lsn := by
    rw [hdid.current.lsn_eq, h.current_eq]
    rfl
  have hbases : UInt64.ofNat options.lsn = w.bases.lsn := by
    rw [hdid.bases.lsn_eq, h.bases_eq]
    rfl
  refine ⟨fun hhas => ⟨w.current.finish, hheaps _ (h.heapFile_eq hdid 0 ▸ List.mem_cons_self), ?_⟩,
    fun hhas => ⟨w.bases.finish,
      hheaps _ (h.heapFile_eq hdid 1 ▸ List.mem_cons_of_mem _ List.mem_cons_self), ?_⟩⟩
  · rw [hcurrent]
    exact hhas.finish
  · rw [hbases]
    exact hhas.finish

variable {p : Progress}

/-- The partitions of other tables stay. -/
theorem Progress.getElem?_add_of_ne (h : output.Belongs disk here options table) {route : Route}
    (hne : route.1 ≠ table) : (p.add output).partitions[route]? = p.partitions[route]? := by
  refine (SortedMap.getElem?_insertMany_toList _ _ route).trans ?_
  rw [ExtTreeMap.getElem?_eq_none fun hmem => hne (h.routes route hmem)]
  rfl

/-- Those of a new table are those of its output. -/
theorem Progress.getElem?_add_of_eq (hnew : ∀ route ∈ p.partitions, route.1 ≠ table)
    {route : Route} (heq : route.1 = table) :
    (p.add output).partitions[route]? = output.partitions[route]? := by
  refine (SortedMap.getElem?_insertMany_toList _ _ route).trans ?_
  rw [ExtTreeMap.getElem?_eq_none fun hmem => hnew route hmem heq, Option.or_none]

end Output

/-- **What a table has come to**: its primary index is done with, and it lists what the counters
say, all entities of the view and each of them with its records. -/
def Complete (disk : Disk) (state : ReadState) (listed : List Entry) (options : TableOptions)
    (slots : List (Option ℕ)) (last table : ℕ) (pass : Pass Progress) : Prop :=
  ∃ ix old ds next n, Idle disk (shownEntries disk) ix primaryIndex ds old ∧ ix.table = table ∧
    Told disk slots last table ds next n ∧
    (∀ route : Route, route.1 = table →
      pass.writer.partitions[route]? = ix.parts[route]?) ∧
    (∀ file ∈ ix.built, file ∈ pass.writer.written) ∧
    (∀ slot, (tally pass.occupancy table slot).entities = (tally pass.occupancy table slot).dead +
      (shownBy disk ds).countP fun e => names slot e.2) ∧
    (∀ id, id ∈ idsOf (shownBy disk ds) ↔
      id ∈ idsOf listed ∨ (table, id) ∈ state.overlay ∧ id ≤ maxU64) ∧
    ∀ e ∈ shownBy disk ds, Origin state listed slots last table
      (recordsIn pass.writer.written options table 0)
      (recordsIn pass.writer.written options table 1) e

/-- **What a pass has come to behind some tables.** -/
structure Tabled (disk : Disk) (here : FileInfo → Prop) (state : ReadState)
    (listed : ℕ → List Entry) (options : TableOptions) (slots : List (Option ℕ)) (last : ℕ)
    (kept : SortedMap (ℕ × ℕ) Occupancy) (begun : List FileInfo) (done : List ℕ)
    (pass : Pass Progress) : Prop where
  table : pass.writer.table = none
  routes : ∀ route ∈ pass.writer.partitions, route.1 ∈ done
  files : ∀ (route : Route) (part : Partition), pass.writer.partitions[route]? = some part →
    ∃ info ∈ pass.writer.files, info.id = part.file
  present : ∀ info ∈ pass.writer.files, here info ∨ info.id ∈ pass.writer.written.map Prod.fst
  stays : ∀ info ∈ begun, info ∈ pass.writer.files
  heaps : ∀ table ∈ done, ∀ kind ∈ [0, 1],
    ⟨table, options.generation, kind, 0⟩ ∈ pass.writer.files.map FileInfo.id
  nodup : (pass.writer.written.map Prod.fst).Nodup
  written : ∀ file ∈ pass.writer.written, file.1.table ∈ done ∧
    file.1.generation = options.generation ∧ disk file.1 = none ∧ file.2.length < 2 ^ 53
  others : ∀ key : ℕ × ℕ, key.1 ∉ done → pass.occupancy[key]? = kept[key]?
  known : ∀ key ∈ pass.occupancy, key ∈ kept ∨ key.1 ∈ done ∧ key.2 ≤ last
  complete : ∀ table ∈ done, Complete disk state (listed table) options slots last table pass

section Tables

variable {disk : Disk} {here : FileInfo → Prop} {storage : Storage} {options : TableOptions}
  {limit : ℕ} {state : ReadState} {slots : List (Option ℕ)} {last table : ℕ}
  {start pass pass' : Pass Progress}

/-- A table begins with nothing. -/
theorem Underway.begin {listed : List Entry} {w₀ : FullTableWriter} :
    Underway disk here state listed slots last table start w₀ 0 (fun _ => 0) ∅
      { start with writer := { start.writer with table := some w₀ } } where
  writer := ⟨w₀, [], 0, rfl, .refl disk here w₀, told_nil, fun _ _ _ => rfl,
    Set.eq_empty_of_forall_notMem fun _ ⟨_, he, _⟩ => absurd he List.not_mem_nil,
    List.forall_mem_nil _⟩
  entities _ := rfl
  known _ hkey := Or.inl hkey
  others _ _ := rfl

/-- **What visiting a table does.** -/
theorem visitTable_eq_ok {rewriteIndexes : Bool}
    (hok : ((tableWriter disk storage options limit).visitTable state slots rewriteIndexes last
      table
      pass).result = .ok pass') :
    ∃ w₀ limit' mid entities writer, w₀.Created disk options table limit' ∧
      ((tableWriter disk storage options limit).visitBuckets state slots table
        (state.buckets table).toList
        { pass with writer := { pass.writer with table := some w₀ } }).result = .ok mid ∧
      mid.writer.finish storage = .ok (entities, writer) ∧
      pass' = { mid with
        occupancy := mid.occupancy.insert (table, last) { tally mid.occupancy table last with
          entities := (tally mid.occupancy table last).entities + entities }
        writer } := by
  rw [Writer.visitTable, Guarded.result_bind] at hok
  obtain ⟨writer₀, hbegin, hok⟩ := bind_eq_ok.mp hok
  rw [Guarded.result_bind] at hok
  obtain ⟨mid, hbuckets, hok⟩ := bind_eq_ok.mp hok
  rw [Guarded.result_bind] at hok
  obtain ⟨⟨entities, writer⟩, hfinish, hok⟩ := bind_eq_ok.mp hok
  cases hok
  obtain ⟨w₀, hcreate, heq⟩ := bind_eq_ok.mp hbegin
  cases heq
  exact ⟨w₀, _, mid, entities, writer, create_eq_ok hcreate, hbuckets, hfinish, rfl⟩

theorem Progress.finish_eq_ok {p p' : Progress} {w : FullTableWriter} {entities : ℕ}
    (htable : p.table = some w) (hok : p.finish storage = .ok (entities, p')) :
    ∃ output, w.finish storage = .ok output ∧ entities = output.entities ∧ p' = p.add output := by
  rw [Progress.finish, htable] at hok
  obtain ⟨output, hfinish, hok⟩ := bind_eq_ok.mp hok
  cases hok
  exact ⟨output, hfinish, rfl, rfl⟩

/-- What a table has come to does not change with other tables. -/
theorem Complete.of_others {listed : List Entry}
    (h : Complete disk state listed options slots last table pass)
    (hparts : ∀ route : Route, route.1 = table →
      pass'.writer.partitions[route]? = pass.writer.partitions[route]?)
    (hwritten : ∀ file ∈ pass.writer.written, file ∈ pass'.writer.written)
    (hoccupancy : ∀ slot : ℕ, pass'.occupancy[(table, slot)]? = pass.occupancy[(table, slot)]?) :
    Complete disk state listed options slots last table pass' := by
  obtain ⟨ix, old, ds, next, n, hidle, htable, htold, hroutes, hbuilt, hcount, hids, horigin⟩ := h
  have hrecords (kind location : ℕ) (bytes : Bytes)
      (h : recordsIn pass.writer.written options table kind location bytes) :
      recordsIn pass'.writer.written options table kind location bytes := by
    obtain ⟨file, hfile, hhas⟩ := h
    exact ⟨file, hwritten _ hfile, hhas⟩
  refine ⟨ix, old, ds, next, n, hidle, htable, htold,
    fun route hroute => (hparts route hroute).trans (hroutes route hroute),
    fun file hfile => hwritten file (hbuilt file hfile), fun slot => ?_, hids,
    fun e he => (horigin e he).mono (hrecords 0) (hrecords 1)⟩
  have htally : tally pass'.occupancy table slot = tally pass.occupancy table slot :=
    congrArg (fun found : Option Occupancy => found.getD ⟨0, 0⟩) (hoccupancy slot)
  rw [htally]
  exact hcount slot

/-- **The counters of a table that is written** say what its primary index lists. -/
theorem Underway.balanced {listed : List Entry} {w₀ : FullTableWriter}
    {steps : List (Fin 3 × Delivery)} {next n : ℕ} {ids : Set ℕ}
    {entries : ℕ → List (ℕ × IndexValue)} (hslots : Translates slots last)
    (h : Underway disk here state listed slots last table start w₀ next
      (fun slot => (entries table).countP fun e => names slot e.2) ids pass)
    (hkept : ∀ old new, newSlot slots old = some new → (tally start.occupancy table new).entities =
      (tally start.occupancy table new).dead + (entries table).countP fun e => names old e.2)
    (hbelow : ∀ key ∈ start.occupancy, key.1 = table → ∃ old, newSlot slots old = some key.2)
    (htold : Told disk slots last table (delivered primaryIndex steps) next n)
    (hbalance : ∀ old new, newSlot slots old = some new → (tally pass.occupancy table new).dead +
        (shownBy disk (delivered primaryIndex steps)).countP (fun e => names new e.2) =
      (tally start.occupancy table new).dead + (entries table).countP fun e => names old e.2)
    (slot : ℕ) :
    let occupancy := pass.occupancy.insert (table, last) { tally pass.occupancy table last with
      entities := (tally pass.occupancy table last).entities + n }
    (tally occupancy table slot).entities = (tally occupancy table slot).dead +
      (shownBy disk (delivered primaryIndex steps)).countP fun e => names slot e.2 := by
  intro occupancy
  have hnone (slot : ℕ) (hslot : ∀ old, newSlot slots old ≠ some slot) :
      tally pass.occupancy table slot = ⟨0, 0⟩ := by
    have hstart : (table, slot) ∉ start.occupancy := fun hmem => by
      obtain ⟨old, hnew⟩ := hbelow (table, slot) hmem rfl
      exact hslot old hnew
    rw [tally, h.others (table, slot) (Or.inr hslot), ExtTreeMap.getElem?_eq_none hstart]
    rfl
  by_cases hslot : slot = last
  · -- what was written anew is all there is of the new slot
    have hfresh := hnone last fun old hnew => (hslots.below old last hnew).ne rfl
    have htally : tally occupancy table last = ⟨n, 0⟩ := by
      rw [tally, ExtTreeMap.getElem?_insert_self, hfresh, Nat.zero_add]
      rfl
    rw [hslot, htally, htold.anew, Nat.zero_add]
  have htally : tally occupancy table slot = tally pass.occupancy table slot := by
    rw [tally, SortedMap.getElem?_insert_of_ne, tally]
    rintro ⟨⟩
    exact hslot rfl
  rw [htally]
  by_cases himage : ∃ old, newSlot slots old = some slot
  · obtain ⟨old, hnew⟩ := himage
    rw [h.entities slot, hkept old slot hnew, hbalance old slot hnew]
  · have himage' : ∀ old, newSlot slots old ≠ some slot := not_exists.mp himage
    rw [hnone slot himage', Nat.zero_add]
    refine (List.countP_eq_zero.mpr fun e he hnames => ?_).symm
    obtain ⟨slot', hslot', hknown⟩ := htold.slot e he
    obtain rfl : slot' = slot := Except.ok.inj (hslot'.symm.trans (names_iff.mp hnames))
    rcases hknown with hknown | hknown
    · exact hslot hknown
    · exact himage hknown

section Table

variable {entries : ℕ → List (ℕ × IndexValue)} {listed : ℕ → List Entry}
  {absorb : SortedSet ℕ} {generation lsn : ℕ} {generations : List GenerationInfo}
  (hindexed : Indexed state entries) (hlocated : Located disk state table (listed table))
  (hentries : entries table = (listed table).map byId)

include hlocated in
/-- Buckets begin at numbers of eight bytes. -/
theorem le_of_mem_buckets {lower : ℕ} (h : lower ∈ (state.buckets table).toList) :
    lower ≤ maxU64 := by
  rcases mem_buckets.mp h with ⟨route, hmem, rfl, hkind, rfl⟩ | ⟨id, -, hid, rfl⟩
  · obtain ⟨part, hpart⟩ := Option.isSome_iff_exists.mp (ExtTreeMap.mem_iff_isSome_getElem?.mp hmem)
    have hroute : route = (route.1, 3, route.2.2) := Prod.ext rfl (Prod.ext hkind rfl)
    rw [hroute] at hpart
    -- a partition has entries, and they lie in its bucket
    have hfirst := (hlocated.routed.shows route.2.2 part hpart).first
    obtain ⟨e, he, -⟩ := Option.map_eq_some_iff.mp hfirst
    obtain ⟨hmem, hbucket⟩ := List.mem_filter.mp (List.mem_of_mem_head? he)
    rw [← of_decide_eq_true hbucket, bucket, if_pos rfl]
    exact (Nat.div_mul_le_self _ _).trans (Nat.le_of_lt_succ (hlocated.fits e hmem).1)
  · rw [bucket, if_pos rfl]
    exact (Nat.div_mul_le_self _ _).trans hid

include hindexed hlocated hentries in
/-- **The buckets of a table have all its entities.** -/
theorem mem_within_buckets (id : ℕ) :
    (∃ lower ∈ (state.buckets table).toList, id ∈ state.within (listed table) table lower) ↔
      id ∈ idsOf (listed table) ∨ (table, id) ∈ state.overlay ∧ id ≤ maxU64 := by
  have hinside (hbound : id ≤ maxU64) : (bucket 3 (id, 0)).1 ≤ id ∧
      id ≤ saturatingAdd (bucket 3 (id, 0)).1 (width - 1) :=
    of_decide_eq_true ((inBucket_iff (e := (id, (0, 0))) (bucket_aligned (id, 0)) hbound).mpr rfl)
  constructor
  · rintro ⟨lower, -, hmem | hmem, -, hupper⟩
    · exact Or.inl hmem
    · refine Or.inr ⟨hmem, hupper.trans ?_⟩
      rw [saturatingAdd]
      exact Nat.min_le_right _ _
  · rintro (hmem | ⟨hmem, hbound⟩)
    · obtain ⟨e, he, rfl⟩ := hmem
      have hbound := Nat.le_of_lt_succ (hlocated.fits e he).1
      obtain ⟨-, -, part, -, -, hpart, -⟩ :=
        hindexed.part table (byId e) (hentries ▸ List.mem_map_of_mem he)
      refine ⟨(bucket 3 (e.1.1, 0)).1, mem_buckets.mpr
        (Or.inl ⟨(table, 3, bucket 3 (e.1.1, 0)), ?_, rfl, rfl, rfl⟩), Or.inl ⟨e, he, rfl⟩,
        hinside hbound⟩
      exact ExtTreeMap.mem_iff_isSome_getElem?.mpr (Option.isSome_iff_exists.mpr ⟨part, hpart⟩)
    · exact ⟨_, mem_buckets.mpr (Or.inr ⟨id, hmem, hbound, rfl⟩), Or.inr hmem, hinside hbound⟩

variable (hrebuild : state.root.manifest.rebuildSlots absorb generation lsn =
    .ok (generations, slots)) (hslots : Translates slots last) (hhere : state.Here here)

include hindexed hlocated hentries hrebuild hslots hhere

/-- **A table is written**: what it has told its primary index, and what its counters say. -/
theorem Underway.visitTable {w₀ : FullTableWriter} {limit' : ℕ}
    (hcreated : w₀.Created disk options table limit') (hlast : options.slot = last)
    (hok : ((tableWriter disk storage options limit).visitBuckets state slots table
      (state.buckets table).toList
      { start with writer := { start.writer with table := some w₀ } }).result = .ok pass) :
    ∃ next, Underway disk here state (listed table) slots last table start w₀ next
      (fun slot => (entries table).countP fun e => names slot e.2)
      {id | id ∈ idsOf (listed table) ∨ (table, id) ∈ state.overlay ∧ id ≤ maxU64} pass := by
  have hbegin : Underway disk here state (listed table) slots last table start w₀ 0 (fun _ => 0) ∅
      { start with writer := { start.writer with table := some w₀ } } := .begin
  obtain ⟨next, hdone⟩ := hbegin.visitBuckets hindexed hlocated hentries hrebuild hslots
    (hcreated.slot_eq.trans hlast) hcreated.stores hhere
    (fun lower hlower => ⟨buckets_aligned hindexed hlower, Nat.zero_le lower,
      le_of_mem_buckets hlocated hlower⟩)
    (ExtTreeSet.ordered_toList.imp fun hlt => Nat.compare_eq_lt.mp hlt) hok
  simp only [sum_countP_filter fun e he => countP_inBucket hindexed he, Nat.zero_add,
    Set.empty_union, mem_within_buckets hindexed hlocated hentries] at hdone
  exact ⟨next, hdone⟩

omit hindexed hlocated hentries hrebuild hhere in
/-- **A table is complete** when its writer has finished: its output is its own, and its counters
say what its primary index lists. -/
theorem Underway.complete {w₀ : FullTableWriter} {limit' next count : ℕ} {writer : Progress}
    (h : Underway disk here state (listed table) slots last table start w₀ next
      (fun slot => (entries table).countP fun e => names slot e.2)
      {id | id ∈ idsOf (listed table) ∨ (table, id) ∈ state.overlay ∧ id ≤ maxU64} pass)
    (hcreated : w₀.Created disk options table limit') (hlsn : options.lsn < 2 ^ 64)
    (hkept : ∀ old new, newSlot slots old = some new → (tally start.occupancy table new).entities =
      (tally start.occupancy table new).dead + (entries table).countP fun e => names old e.2)
    (hbelow : ∀ key ∈ start.occupancy, key.1 = table → ∃ old, newSlot slots old = some key.2)
    (hnew : ∀ route ∈ start.writer.partitions, route.1 ≠ table)
    (hfinish : pass.writer.finish storage = .ok (count, writer)) :
    ∃ output : TableOutput, output.Belongs disk here options table ∧
      writer = start.writer.add output ∧
      Complete disk state (listed table) options slots last table { pass with
        occupancy := pass.occupancy.insert (table, last) { tally pass.occupancy table last with
          entities := (tally pass.occupancy table last).entities + count }
        writer } := by
  obtain ⟨w, steps, n, hwriter, hdid, htold, hbalance, hids, horigin⟩ := h.writer
  obtain ⟨output, houtput, rfl, rfl⟩ :=
    Progress.finish_eq_ok (congrArg Progress.table hwriter) hfinish
  have hadd : pass.writer.add output = start.writer.add output := by rw [hwriter]; rfl
  have hbelongs := hcreated.belongs hdid houtput
  have hrecords := hcreated.records hdid houtput
  have hcount : output.entities = n := by
    obtain ⟨-, -, -, -, -, rfl⟩ := finish_eq_ok houtput
    rw [hdid.entities, hcreated.entities_eq, Nat.zero_add]
  refine ⟨output, hbelongs, hadd, ?_⟩
  obtain ⟨indexFiles, partitions, built, hindexes, -, rfl⟩ := finish_eq_ok houtput
  have hordered : (delivered primaryIndex steps).Pairwise (Delivery.Before (kind primaryIndex)) :=
    htold.ordered
  obtain ⟨ix', old, hidle, hix, rfl, rfl⟩ :=
    hcreated.idle hdid hlsn hordered htold.sound hindexes
  rw [hadd]
  refine ⟨ix', old, _, next, n, hidle, hix, htold,
    fun route heq => Progress.getElem?_add_of_eq hnew heq, fun file hfile => ?_, fun slot => ?_,
    fun id => Set.ext_iff.mp hids id, fun e he => (horigin e he).mono ?_ ?_⟩
  · exact List.mem_append_right _ (List.mem_append_left _ (List.mem_append_left _ hfile))
  · rw [hcount]
    exact h.balanced hslots hkept hbelow htold hbalance slot
  · rintro location bytes hstored
    obtain ⟨file, hfile, hhas⟩ := (hrecords location bytes).1 hstored
    exact ⟨file, List.mem_append_right _ hfile, hhas⟩
  · rintro location bytes hstored
    obtain ⟨file, hfile, hhas⟩ := (hrecords location bytes).2 hstored
    exact ⟨file, List.mem_append_right _ hfile, hhas⟩

omit hindexed hlocated hentries hrebuild hslots hhere in
/-- **The output of one more table** joins what there is. -/
theorem Tabled.add {kept : SortedMap (ℕ × ℕ) Occupancy} {begun : List FileInfo} {done : List ℕ}
    {output : TableOutput}
    (h : Tabled disk here state listed options slots last kept begun done pass)
    (htable : table ∉ done) (houtput : output.Belongs disk here options table)
    (hwriter : pass'.writer = pass.writer.add output)
    (hothers : ∀ key : ℕ × ℕ, key.1 ≠ table → pass'.occupancy[key]? = pass.occupancy[key]?)
    (hknown : ∀ key ∈ pass'.occupancy, key ∈ pass.occupancy ∨ key.1 = table ∧ key.2 ≤ last)
    (hcomplete : Complete disk state (listed table) options slots last table pass') :
    Tabled disk here state listed options slots last kept begun (done ++ [table]) pass' := by
  have hlast : table ∈ done ++ [table] := List.mem_append_right _ (List.mem_singleton_self table)
  have hroute (route : Route) (hne : route.1 ≠ table) :
      pass'.writer.partitions[route]? = pass.writer.partitions[route]? := by
    rw [hwriter]
    exact Progress.getElem?_add_of_ne houtput hne
  have hnew : ∀ route ∈ pass.writer.partitions, route.1 ≠ table := fun route hmem heq =>
    htable (heq ▸ h.routes route hmem)
  have hown (route : Route) (heq : route.1 = table) :
      pass'.writer.partitions[route]? = output.partitions[route]? := by
    rw [hwriter]
    exact Progress.getElem?_add_of_eq hnew heq
  have hfiles : pass'.writer.files = pass.writer.files ++ output.files := by
    rw [hwriter]
    rfl
  have hwritten : pass'.writer.written = pass.writer.written ++ output.written := by
    rw [hwriter]
    rfl
  constructor
  · rw [hwriter]
    rfl
  · intro route hmem
    by_cases heq : route.1 = table
    · exact heq ▸ hlast
    · rw [ExtTreeMap.mem_iff_isSome_getElem?, hroute route heq] at hmem
      exact List.mem_append_left _ (h.routes route (ExtTreeMap.mem_iff_isSome_getElem?.mpr hmem))
  · intro route part hpart
    rw [hfiles]
    by_cases heq : route.1 = table
    · rw [hown route heq] at hpart
      obtain ⟨info, hinfo, hid⟩ := houtput.files route part hpart
      exact ⟨info, List.mem_append_right _ hinfo, hid⟩
    · rw [hroute route heq] at hpart
      obtain ⟨info, hinfo, hid⟩ := h.files route part hpart
      exact ⟨info, List.mem_append_left _ hinfo, hid⟩
  · rw [hfiles, hwritten, List.map_append]
    intro info hinfo
    rcases List.mem_append.mp hinfo with hinfo | hinfo
    · exact (h.present info hinfo).imp id fun hmem => List.mem_append_left _ hmem
    · exact (houtput.present info hinfo).imp id fun hmem => List.mem_append_right _ hmem
  · rw [hfiles]
    exact fun info hinfo => List.mem_append_left _ (h.stays info hinfo)
  · rw [hfiles, List.map_append]
    intro table' hdone kind hkind
    rcases List.mem_append.mp hdone with hdone | hdone
    · exact List.mem_append_left _ (h.heaps table' hdone kind hkind)
    · obtain rfl := List.mem_singleton.mp hdone
      exact List.mem_append_right _ (houtput.heaps kind hkind)
  · rw [hwritten, List.map_append]
    refine h.nodup.append houtput.nodup fun id hleft hright => ?_
    obtain ⟨file, hfile, rfl⟩ := List.mem_map.mp hleft
    obtain ⟨file', hfile', heq⟩ := List.mem_map.mp hright
    have hdone := (h.written file hfile).1
    rw [← heq, (houtput.written file' hfile').1] at hdone
    exact htable hdone
  · rw [hwritten]
    intro file hfile
    rcases List.mem_append.mp hfile with hfile | hfile
    · obtain ⟨hdone, hrest⟩ := h.written file hfile
      exact ⟨List.mem_append_left _ hdone, hrest⟩
    · obtain ⟨heq, hrest⟩ := houtput.written file hfile
      exact ⟨heq ▸ hlast, hrest⟩
  · intro key hkey
    obtain ⟨hdone, hne⟩ := not_or.mp (mt List.mem_append.mpr hkey)
    exact (hothers key (mt List.mem_singleton.mpr hne)).trans (h.others key hdone)
  · intro key hkey
    rcases hknown key hkey with hkey | ⟨heq, hle⟩
    · exact (h.known key hkey).imp id fun hdone => ⟨List.mem_append_left _ hdone.1, hdone.2⟩
    · exact Or.inr ⟨heq ▸ hlast, hle⟩
  · intro table' hdone
    by_cases heq : table' = table
    · exact heq ▸ hcomplete
    · have hdone : table' ∈ done := (List.mem_append.mp hdone).resolve_right
        (mt List.mem_singleton.mp heq)
      exact (h.complete table' hdone).of_others (fun route hroute' => hroute route (hroute' ▸ heq))
        (fun file hfile => hwritten ▸ List.mem_append_left _ hfile)
        fun slot => hothers (table', slot) heq

/-- **One more table.** -/
theorem Tabled.visitTable {kept : SortedMap (ℕ × ℕ) Occupancy} {begun : List FileInfo}
    {done : List ℕ} {rewriteIndexes : Bool}
    (h : Tabled disk here state listed options slots last kept begun done pass)
    (htable : table ∉ done) (hlast : options.slot = last) (hlsn : options.lsn < 2 ^ 64)
    (hkept : ∀ old new, newSlot slots old = some new → (tally kept table new).entities =
      (tally kept table new).dead + (entries table).countP fun e => names old e.2)
    (hbelow : ∀ key ∈ kept, ∃ old, newSlot slots old = some key.2)
    (hok : ((tableWriter disk storage options limit).visitTable state slots rewriteIndexes last
      table
      pass).result = .ok pass') :
    Tabled disk here state listed options slots last kept begun (done ++ [table]) pass' := by
  obtain ⟨w₀, limit', mid, count, writer, hcreated, hbuckets, hfinish, rfl⟩ :=
    visitTable_eq_ok hok
  obtain ⟨next, hunderway⟩ := Underway.visitTable hindexed hlocated hentries hrebuild hslots hhere
    hcreated hlast hbuckets
  -- what is kept of the table is what the pass has of it
  have hsame (slot : ℕ) : pass.occupancy[(table, slot)]? = kept[(table, slot)]? :=
    h.others (table, slot) htable
  have htally (slot : ℕ) : tally pass.occupancy table slot = tally kept table slot :=
    congrArg (fun found : Option Occupancy => found.getD ⟨0, 0⟩) (hsame slot)
  have hstart : ∀ key ∈ pass.occupancy, key.1 = table → ∃ old, newSlot slots old = some key.2 := by
    rintro ⟨_, slot⟩ hkey rfl
    rw [ExtTreeMap.mem_iff_isSome_getElem?, hsame] at hkey
    exact hbelow _ (ExtTreeMap.mem_iff_isSome_getElem?.mpr hkey)
  have hnew : ∀ route ∈ pass.writer.partitions, route.1 ≠ table := fun route hmem heq =>
    htable (heq ▸ h.routes route hmem)
  obtain ⟨output, hbelongs, rfl, hcomplete⟩ := hunderway.complete hslots hcreated hlsn
    (fun old new hnew => by rw [htally]; exact hkept old new hnew) hstart
    hnew hfinish
  refine h.add htable hbelongs rfl (fun key hkey => ?_) (fun key hkey => ?_) hcomplete
  · rw [SortedMap.getElem?_insert_of_ne, hunderway.others key (Or.inl hkey)]
    rintro rfl
    exact hkey rfl
  · rcases ExtTreeMap.mem_insert.mp hkey with heq | hkey
    · obtain rfl := LawfulEqOrd.eq_of_compare heq
      exact Or.inr ⟨rfl, Nat.le_refl last⟩
    · exact (hunderway.known key hkey).imp id fun hknown => ⟨hknown.1, hknown.2.le⟩

end Table

/-- **All tables**, one after the other. -/
theorem Tabled.visitTables {entries : ℕ → List (ℕ × IndexValue)} {listed : ℕ → List Entry}
    {absorb : SortedSet ℕ} {generation lsn : ℕ} {generations : List GenerationInfo}
    {kept : SortedMap (ℕ × ℕ) Occupancy} {begun : List FileInfo} {tables done : List ℕ}
    {rewriteIndexes : Bool}
    (hindexed : Indexed state entries)
    (hlocated : ∀ table, Located disk state table (listed table))
    (hentries : ∀ table, entries table = (listed table).map byId)
    (hrebuild : state.root.manifest.rebuildSlots absorb generation lsn = .ok (generations, slots))
    (hslots : Translates slots last) (hhere : state.Here here)
    (h : Tabled disk here state listed options slots last kept begun done pass)
    (hnew : (done ++ tables).Nodup) (hlast : options.slot = last) (hlsn : options.lsn < 2 ^ 64)
    (hkept : ∀ table old new, newSlot slots old = some new → (tally kept table new).entities =
      (tally kept table new).dead + (entries table).countP fun e => names old e.2)
    (hbelow : ∀ key ∈ kept, ∃ old, newSlot slots old = some key.2)
    (hok : ((tableWriter disk storage options limit).visitTables state slots rewriteIndexes last
      tables pass).result = .ok pass') :
    Tabled disk here state listed options slots last kept begun (done ++ tables) pass' := by
  induction tables generalizing done pass with
  | nil =>
    cases hok
    rwa [List.append_nil]
  | cons table tables ih =>
    rw [Writer.visitTables, Guarded.result_bind] at hok
    obtain ⟨mid, hvisit, hok⟩ := bind_eq_ok.mp hok
    have hfresh : table ∉ done := fun hmem =>
      (List.nodup_append.mp hnew).2.2 table hmem table List.mem_cons_self rfl
    rw [List.append_cons] at hnew ⊢
    exact ih (h.visitTable hindexed (hlocated table) (hentries table) hrebuild hslots hhere hfresh
      hlast hlsn (hkept table) hbelow hvisit) hnew hok

end Tables

/-! ### The counters that are kept -/

section Kept

variable {root : Root} {slots : List (Option ℕ)}
  (hinjective : ∀ old old' new, newSlot slots old = some new → newSlot slots old' = some new →
    old = old')

/-- What is kept of the counters, under the new slots. -/
theorem mem_kept {key : ℕ × ℕ} {occupancy : Occupancy} :
    (key, occupancy) ∈ root.occupancy.toList.filterMap (fun entry =>
      (newSlot slots entry.1.2).map fun new => ((entry.1.1, new), entry.2)) ↔
    ∃ old, newSlot slots old = some key.2 ∧ root.occupancy[(key.1, old)]? = some occupancy := by
  rw [List.mem_filterMap]
  constructor
  · rintro ⟨⟨⟨table, old⟩, occupancy'⟩, hmem, hsome⟩
    obtain ⟨new, hnew, heq⟩ := Option.map_eq_some_iff.mp hsome
    cases heq
    exact ⟨old, hnew, ExtTreeMap.mem_toList_iff_getElem?_eq_some.mp hmem⟩
  · rintro ⟨old, hnew, hget⟩
    exact ⟨((key.1, old), occupancy), ExtTreeMap.mem_toList_iff_getElem?_eq_some.mpr hget,
      Option.map_eq_some_iff.mpr ⟨key.2, hnew, rfl⟩⟩

theorem mem_keptOccupancy {key : ℕ × ℕ} : key ∈ root.keptOccupancy slots ↔
    ∃ old, newSlot slots old = some key.2 ∧ (key.1, old) ∈ root.occupancy := by
  rw [Root.keptOccupancy, SortedMap.mem_ofList]
  simp only [mem_kept, ExtTreeMap.mem_iff_isSome_getElem?, Option.isSome_iff_exists]
  exact ⟨fun ⟨occupancy, old, hnew, hget⟩ => ⟨old, hnew, occupancy, hget⟩,
    fun ⟨old, hnew, occupancy, hget⟩ => ⟨occupancy, old, hnew, hget⟩⟩

include hinjective

/-- **The counters of a slot that stays** are found under its new number. -/
theorem getElem?_keptOccupancy {table old new : ℕ} (hnew : newSlot slots old = some new) :
    (root.keptOccupancy slots)[(table, new)]? = root.occupancy[(table, old)]? := by
  have hnodup : ((root.occupancy.toList.filterMap fun entry =>
      (newSlot slots entry.1.2).map fun new =>
        ((entry.1.1, new), entry.2)).map Prod.fst).Nodup := by
    rw [List.map_filterMap]
    refine List.pairwise_filterMap.mpr (ExtTreeMap.distinct_keys_toList.imp ?_)
    rintro ⟨⟨table, old⟩, occupancy⟩ ⟨⟨table', old'⟩, occupancy'⟩ hne key hkey key' hkey' rfl
    simp only [Option.map_map, Option.map_eq_some_iff, Function.comp_apply] at hkey hkey'
    obtain ⟨new, hnew, rfl⟩ := hkey
    obtain ⟨new', hnew', heq⟩ := hkey'
    obtain ⟨rfl, rfl⟩ := Prod.mk.inj heq
    obtain rfl := hinjective _ _ _ hnew hnew'
    exact hne ReflOrd.compare_self
  rcases hget : root.occupancy[(table, old)]? with _ | occupancy
  · refine ExtTreeMap.getElem?_eq_none fun hmem => ?_
    obtain ⟨old', hnew', hmem⟩ := mem_keptOccupancy.mp hmem
    obtain rfl := hinjective _ _ _ hnew hnew'
    rw [ExtTreeMap.mem_iff_isSome_getElem?, hget] at hmem
    cases hmem
  · exact SortedMap.getElem?_ofList_of_mem hnodup (mem_kept.mpr ⟨old, hnew, hget⟩)

end Kept

end EveDB
