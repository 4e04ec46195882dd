import EveDB.Builder.Routing

/-!
# Delivering an index

A checkpoint hands an index its entries in key order, one by one or a whole partition of an
earlier manifest at a time (`Delivery`). Each index is followed on its own, whatever is delivered
to the others in between (`LaneState`): which partitions are complete, what the open one has been
given, and that nothing that may still come belongs to a complete one.

As long as the deliveries of an index come in order nothing is refused but for the limit on
partitions, and the state of the index is kept (`LaneState.append`, `LaneState.reuse`).
-/

namespace EveDB

open Store Index

open Std (ExtTreeMap)

/-- What is delivered to an index: an entry, or a partition of an earlier manifest. -/
inductive Delivery
  | entry (key : Key) (value : IndexValue) (dependency : Option FileId)
  | reuse (root : Root) (lower : Key) (part : Partition)

namespace Delivery

/-- The entries a delivery brings, given those the reused partitions show. -/
def entries (shows : Partition → List Entry) : Delivery → List Entry
  | entry key value _ => [(key, value)]
  | reuse _ _ part => shows part

/-- The bucket a delivery belongs to. -/
def bucket (kind : ℕ) : Delivery → Key
  | entry key _ _ => EveDB.bucket kind key
  | reuse _ lower _ => lower

/-- **The order of deliveries**: entries by their keys, and a reused partition is a bucket of its
own. -/
def Before (kind : ℕ) : Delivery → Delivery → Prop
  | entry key _ _, entry key' _ _ => toLex key < toLex key'
  | d, d' => toLex (d.bucket kind) < toLex (d'.bucket kind)

theorem Before.bucket_le {kind : ℕ} {d d' : Delivery} (h : Before kind d d') :
    toLex (d.bucket kind) ≤ toLex (d'.bucket kind) := by
  match d, d', h with
  | entry _ _ _, entry _ _ _, h => exact monotone_bucketOf kind (le_of_lt h)
  | entry _ _ _, reuse _ _ _, h => exact le_of_lt h
  | reuse _ _ _, entry _ _ _, h => exact le_of_lt h
  | reuse _ _ _, reuse _ _ _, h => exact le_of_lt h

/-- What comes after a reused partition is in a later bucket. -/
theorem Before.of_reuse {kind : ℕ} {root : Root} {lower : Key} {part : Partition} {d : Delivery}
    (h : Before kind (reuse root lower part) d) : toLex lower < toLex (d.bucket kind) := by
  cases d with
  | entry => exact h
  | reuse => exact h

/-- A reused partition comes behind the buckets before it. -/
theorem Before.to_reuse {kind : ℕ} {root : Root} {lower : Key} {part : Partition} {d : Delivery}
    (h : Before kind d (reuse root lower part)) : toLex (d.bucket kind) < toLex lower := by
  cases d with
  | entry => exact h
  | reuse => exact h

/-- A delivery the engine can make: numbers of eight bytes, primary entries with one slot, and
partitions that an earlier manifest lists, carried with its slots translated. -/
def Sound (disk : Disk) (shows : Partition → List Entry) (table kind : ℕ) : Delivery → Prop
  | entry key value _ => Fits key ∧ Fits value ∧ (kind = 3 → ∃ slot, entitySlot value = .ok slot)
  | reuse root lower part => (∃ info ∈ root.files, info.id = part.file) ∧
    ∃ absorb generation lsn generations slots earlier entries,
      root.rebuildSlots absorb generation lsn = .ok (generations, slots) ∧
      root.partitions[((table, kind, lower) : Route)]? = some earlier ∧
      earlier.Shows disk kind lower entries ∧ earlier.carry slots = .ok part ∧
      shows part = entries.map (Partition.carryEntry kind slots)

/-- A reused partition shows what the earlier one did, with its slots translated. -/
theorem Sound.shows {disk : Disk} {shows : Partition → List Entry} {table kind : ℕ} {root : Root}
    {lower : Key} {part : Partition} (h : Sound disk shows table kind (reuse root lower part)) :
    part.Shows disk kind lower (shows part) := by
  obtain ⟨-, absorb, generation, lsn, generations, slots, earlier, entries, hrebuild, -, hshows,
    hcarry, hcarried⟩ := h
  rw [hcarried]
  exact hshows.carry hrebuild hcarry

/-- The entries of a delivery lie in its bucket. -/
theorem Sound.bucket_eq {disk : Disk} {shows : Partition → List Entry} {table kind : ℕ}
    {d : Delivery} (h : Sound disk shows table kind d) {e : Entry} (he : e ∈ d.entries shows) :
    EveDB.bucket kind e.1 = d.bucket kind := by
  cases d with
  | entry key value dependency =>
    rw [List.mem_singleton.mp he]
    rfl
  | reuse root lower part => exact h.shows.bucket e he

end Delivery

namespace Indexes

/-- Delivers to one of the indexes. -/
def deliver (disk : Disk) (ix : Indexes) (i : Fin 3) : Delivery → Result Indexes
  | .entry key value dependency => ix.append disk i key value dependency
  | .reuse root lower part => ix.reuse i lower part root

/-- Delivers one after the other. -/
def deliverAll (disk : Disk) : List (Fin 3 × Delivery) → Indexes → Result Indexes
  | [], ix => .ok ix
  | (i, d) :: steps, ix => do deliverAll disk steps (← ix.deliver disk i d)

/-- Builds the indexes of the tables, one behind the other: what is delivered to each table is
written to new indexes, and their partitions join those there are. The limit is on all of them. -/
def buildTables (disk : Disk) (generation lsn limit : ℕ) :
    List (ℕ × List (Fin 3 × Delivery)) → SortedMap Route Partition →
      Result (SortedMap Route Partition × List (FileId × Bytes))
  | [], parts => .ok (parts, [])
  | (table, steps) :: tables, parts => do
    let ix ← deliverAll disk steps (.new table generation lsn (limit - parts.size))
    let (_, built, files) ← ix.finish
    let (parts, written) ← buildTables disk generation lsn limit tables
      (parts.insertMany built.toList)
    return (parts, files ++ written)

/-- What was delivered to an index. -/
def delivered (i : Fin 3) (steps : List (Fin 3 × Delivery)) : List Delivery :=
  (steps.filter fun step => step.1 = i).map Prod.snd

/-! ### The state of one index -/

/-- The file has a tree with these entries, whatever is written behind it. -/
def FileHolds (bytes : Bytes) (lsn base : ℕ) (entries : List Entry) : Prop :=
  ∀ after : Bytes, after.length % pageSize = 0 → (bytes ++ after).length ≤ maxU64 →
    IndexWriter.Answers (bytes ++ after) lsn base entries

theorem FileHolds.extend {bytes more : Bytes} {lsn base : ℕ} {entries : List Entry}
    (h : FileHolds bytes lsn base entries) (hmore : more.length % pageSize = 0) :
    FileHolds (bytes ++ more) lsn base entries := by
  intro after hafter hlen
  rw [List.append_assoc] at hlen ⊢
  refine h (more ++ after) ?_ hlen
  rw [List.length_append, Nat.add_mod, hmore, hafter]
  rfl

/-- **A partition that was built** in the file of its index. -/
structure Built (ix : Indexes) (i : Fin 3) (bytes : Bytes) (lower : Key) (part : Partition)
    (entries : List Entry) : Prop where
  file : part.file = ix.file i
  holds : FileHolds bytes part.lsn part.base entries
  ascending : SortedList.Ascending order entries
  bucket : ∀ e ∈ entries, bucket (kind i) e.1 = lower
  first : entries.head?.map Prod.fst = some part.first
  last : entries.getLast?.map Prod.fst = some part.last
  translate : ∀ e ∈ entries, part.translate e.2 = .ok e.2
  slots : ∀ slot new : ℕ, part.slots[slot]? = some new → new < 2 ^ 8

/-- **A partition that is being built** with these entries. -/
structure Building (ix : Indexes) (i : Fin 3) (old : Bytes) (pending : Pending) (lower : Key)
    (opened : List (Entry × Option FileId)) : Prop where
  route : pending.route = ix.route i lower
  nonempty : opened ≠ []
  bucket : ∀ o ∈ opened, EveDB.bucket (kind i) o.1.1 = lower
  ascending : SortedList.Ascending order (opened.map Prod.fst)
  writer : ∃ leaves,
    IndexWriter.Filled old ix.lsn (ix.lanes i).next (opened.map Prod.fst) pending.writer leaves
  part : ∃ key, opened.head?.map (fun o => o.1.1) = some key ∧
    Partition.noteAll opened (ix.fresh i key) = .ok pending.part

/-- **What there is of one index** after these deliveries. -/
structure LaneState (disk : Disk) (shows : Partition → List Entry) (ix : Indexes) (i : Fin 3)
    (ds : List Delivery) (old : Bytes) (opened : List (Entry × Option FileId)) : Prop where
  length : old.length = (ix.lanes i).next * pageSize
  idle : (ix.lanes i).pending = none → opened = [] ∧ ((ix.lanes i).handle).getD [] = old
  busy : ∀ pending ∈ (ix.lanes i).pending, pending.route ∉ ix.parts ∧
    ∃ lower, Building ix i old pending lower opened ∧
      opened.map Prod.fst = (ds.flatMap (·.entries shows)).filter fun e =>
        bucket (kind i) e.1 = lower
  came : ∀ o ∈ opened, Delivery.entry o.1.1 o.1.2 o.2 ∈ ds
  parts : ∀ lower part, ix.parts[ix.route i lower]? = some part →
    let entries := (ds.flatMap (·.entries shows)).filter fun e => bucket (kind i) e.1 = lower
    part.Shows disk (kind i) lower entries ∨ Built ix i old lower part entries
  sealed : ∀ lower, ix.route i lower ∈ ix.parts → ∀ d', (∀ d ∈ ds, d.Before (kind i) d') →
    toLex lower < toLex (d'.bucket (kind i))
  covered : ∀ e ∈ ds.flatMap (·.entries shows), (∃ o ∈ opened, o.1 = e) ∨
    ix.route i (bucket (kind i) e.1) ∈ ix.parts

section Lanes

variable {disk : Disk} {shows : Partition → List Entry} {ix ix' : Indexes} {i j : Fin 3}
  {ds : List Delivery} {old : Bytes} {opened : List (Entry × Option FileId)}

/-- **What a step on one index leaves alone.** -/
structure Apart (i : Fin 3) (ix ix' : Indexes) : Prop where
  limit : ix'.limit = ix.limit
  table : ix'.table = ix.table
  generation : ix'.generation = ix.generation
  lsn : ix'.lsn = ix.lsn
  lanes : ∀ j ≠ i, ix'.lanes j = ix.lanes j
  parts : ∀ j ≠ i, ∀ lower, ix'.parts[ix.route j lower]? = ix.parts[ix.route j lower]?
  tables : (∀ route ∈ ix.parts, route.1 = ix.table) → ∀ route ∈ ix'.parts, route.1 = ix'.table
  routes : (∀ route ∈ ix.parts, ∃ j lower, route = ix.route j lower) →
    ∀ route ∈ ix'.parts, ∃ j lower, route = ix'.route j lower

theorem Apart.refl (i : Fin 3) (ix : Indexes) : Apart i ix ix :=
  ⟨rfl, rfl, rfl, rfl, fun _ _ => rfl, fun _ _ _ => rfl, fun h => h, fun h => h⟩

theorem Apart.route {i : Fin 3} (h : Apart i ix ix') (j : Fin 3) (lower : Key) :
    ix'.route j lower = ix.route j lower := by
  rw [Indexes.route, Indexes.route, h.table]

theorem Apart.file {i : Fin 3} (h : Apart i ix ix') (j : Fin 3) : ix'.file j = ix.file j := by
  rw [Indexes.file, Indexes.file, h.table, h.generation]

theorem Apart.trans {ix'' : Indexes} (h : Apart i ix ix') (h' : Apart i ix' ix'') :
    Apart i ix ix'' where
  limit := h'.limit.trans h.limit
  table := h'.table.trans h.table
  generation := h'.generation.trans h.generation
  lsn := h'.lsn.trans h.lsn
  lanes j hj := (h'.lanes j hj).trans (h.lanes j hj)
  parts j hj lower := by
    have hparts := h'.parts j hj lower
    rw [h.route] at hparts
    exact hparts.trans (h.parts j hj lower)
  tables htables := h'.tables (h.tables htables)
  routes hroutes := h'.routes (h.routes hroutes)

theorem route_ne (hne : i ≠ j) (lower lower' : Key) : ix.route i lower ≠ ix.route j lower' := by
  intro heq
  have hkind : kind i = kind j := congrArg (fun route : Route => route.2.1) heq
  exact hne (Fin.ext (Nat.add_right_cancel hkind))

theorem route_injective {lower lower' : Key} (h : ix.route i lower = ix.route i lower') :
    lower = lower' := congrArg (fun route : Route => route.2.2) h

/-- A step that writes only to the partitions and the state of one index. -/
theorem apart_update {lane : Lane} {lower : Key} {part : Partition}
    (hlimit : ix'.limit = ix.limit) (htable : ix'.table = ix.table)
    (hgeneration : ix'.generation = ix.generation) (hlsn : ix'.lsn = ix.lsn)
    (hlanes : ix'.lanes = Function.update ix.lanes i lane)
    (hparts : ix'.parts = ix.parts ∨ ix'.parts = ix.parts.insert (ix.route i lower) part) :
    Apart i ix ix' where
  limit := hlimit
  table := htable
  generation := hgeneration
  lsn := hlsn
  lanes j hj := by rw [hlanes, Function.update_of_ne hj]
  parts j hj lower' := by
    rcases hparts with hparts | hparts
    · rw [hparts]
    · rw [hparts, ExtTreeMap.getElem?_insert, if_neg]
      exact fun heq => route_ne hj.symm _ _ (Std.LawfulEqOrd.eq_of_compare heq)
  tables htables route hroute := by
    rw [htable]
    rcases hparts with hparts | hparts
    · rw [hparts] at hroute
      exact htables route hroute
    · rw [hparts, ExtTreeMap.mem_insert] at hroute
      rcases hroute with heq | hroute
      · rw [← Std.LawfulEqOrd.eq_of_compare heq]
        rfl
      · exact htables route hroute
  routes hroutes route hroute := by
    have hsame (j : Fin 3) (lower : Key) : ix.route j lower = ix'.route j lower := by
      rw [Indexes.route, Indexes.route, htable]
    have hold (hroute : route ∈ ix.parts) : ∃ j lower, route = ix'.route j lower := by
      obtain ⟨j, lower, rfl⟩ := hroutes route hroute
      exact ⟨j, lower, hsame j lower⟩
    rcases hparts with hparts | hparts
    · exact hold (hparts ▸ hroute)
    · rw [hparts, ExtTreeMap.mem_insert] at hroute
      rcases hroute with heq | hroute
      · exact ⟨i, lower, (Std.LawfulEqOrd.eq_of_compare heq).symm.trans (hsame i lower)⟩
      · exact hold hroute

theorem apart_lanes {lane : Lane} (hlimit : ix'.limit = ix.limit) (htable : ix'.table = ix.table)
    (hgeneration : ix'.generation = ix.generation) (hlsn : ix'.lsn = ix.lsn)
    (hlanes : ix'.lanes = Function.update ix.lanes i lane) (hparts : ix'.parts = ix.parts) :
    Apart i ix ix' :=
  @apart_update ix ix' i lane (0, 0) (ix.fresh i (0, 0)) hlimit htable hgeneration hlsn hlanes
    (Or.inl hparts)

/-- **The other indexes are left as they were.** -/
theorem LaneState.of_apart (h : LaneState disk shows ix j ds old opened) (hapart : Apart i ix ix')
    (hne : j ≠ i) : LaneState disk shows ix' j ds old opened := by
  have hlane := hapart.lanes j hne
  have hmem (lower : Key) : ix'.route j lower ∈ ix'.parts ↔ ix.route j lower ∈ ix.parts := by
    rw [hapart.route, ExtTreeMap.mem_iff_isSome_getElem?, hapart.parts j hne,
      ← ExtTreeMap.mem_iff_isSome_getElem?]
  refine ⟨?_, ?_, ?_, h.came, ?_, ?_, ?_⟩
  · rw [hlane]
    exact h.length
  · rw [hlane]
    exact h.idle
  · rw [hlane]
    intro pending hpending
    obtain ⟨hnew, lower, hbuilding, hopened⟩ := h.busy pending hpending
    refine ⟨?_, lower, ⟨?_, hbuilding.nonempty, hbuilding.bucket, hbuilding.ascending, ?_, ?_⟩,
      hopened⟩
    · rwa [hbuilding.route, ← hapart.route, hmem, ← hbuilding.route]
    · rw [hapart.route]
      exact hbuilding.route
    · rw [hapart.lsn, hlane]
      exact hbuilding.writer
    · have hfresh (key : Key) : ix'.fresh j key = ix.fresh j key := by
        rw [Indexes.fresh, Indexes.fresh, hapart.file, hapart.lsn, hlane]
      obtain ⟨key, hhead, hnotes⟩ := hbuilding.part
      exact ⟨key, hhead, by rwa [hfresh]⟩
  · intro lower part hpart
    rw [hapart.route, hapart.parts j hne] at hpart
    refine (h.parts lower part hpart).imp id fun hbuilt => ?_
    exact ⟨by rw [hapart.file, hbuilt.file], hbuilt.holds, hbuilt.ascending, hbuilt.bucket,
      hbuilt.first, hbuilt.last, hbuilt.translate, hbuilt.slots⟩
  · intro lower hlower
    exact h.sealed lower ((hmem lower).mp hlower)
  · intro e he
    exact (h.covered e he).imp id (hmem _).mpr

/-! ### Finishing a partition -/

/-- Entries that were noted are shown as they are. -/
theorem translate_noted {part : Partition} {key : Key}
    (hnotes : Partition.noteAll opened (ix.fresh i key) = .ok part)
    (hfits : ∀ o ∈ opened, Fits o.1.2) {o : Entry × Option FileId} (ho : o ∈ opened) :
    part.translate o.1.2 = .ok o.1.2 := by
  have hfile := (Partition.noteAll_fields hnotes).1
  by_cases hkind : part.file.kind = 3
  · obtain ⟨-, hself, -, hentries⟩ := Partition.noteAll_slots hnotes (hfile ▸ hkind) (by
      intro slot new hget
      rw [Indexes.fresh, ExtTreeMap.getElem?_empty] at hget
      cases hget)
    obtain ⟨slot, hslot, hmem⟩ := hentries o ho
    obtain ⟨new, hnew⟩ := Option.isSome_iff_exists.mp (ExtTreeMap.mem_iff_isSome_getElem?.mp hmem)
    obtain ⟨rfl, -⟩ := hself slot new hnew
    rw [Partition.translate, if_neg (not_not.mpr hkind), hslot, ok_bind, hnew]
    exact congrArg Except.ok (remap_self (hfits o ho).1 (hfits o ho).2 hslot)
  · rw [Partition.translate, if_pos hkind]

/-- **A partition is finished**: a tree is put behind the file. -/
theorem Building.finish {pending : Pending} {lower : Key}
    (h : Building ix i old pending lower opened) (hlen : old.length = (ix.lanes i).next * pageSize)
    (hlsn : ix.lsn < 2 ^ 64) (hfits : ∀ o ∈ opened, Fits o.1.1 ∧ Fits o.1.2) :
    ∃ tree pages, pending.writer.finishPart = old ++ tree ∧ tree.length = pages * pageSize ∧
      Built ix i (old ++ tree) lower pending.part (opened.map Prod.fst) := by
  obtain ⟨leaves, hfilled⟩ := h.writer
  obtain ⟨key, hhead, hnotes⟩ := h.part
  obtain ⟨hfile, hlsn', hbase, hfirst, hlast⟩ := Partition.noteAll_fields hnotes
  obtain ⟨tree, pages, hfinish, htree, hanswers⟩ := hfilled.finishPart hlen hlsn
    (List.forall_mem_map.mpr hfits) h.ascending
  refine ⟨tree, pages, hfinish, htree, hfile, ?_, h.ascending, ?_, ?_, ?_, ?_, ?_⟩
  · intro after hafter hlength
    rw [List.append_assoc] at hlength ⊢
    rw [hlsn', hbase]
    exact (hanswers old after hlen hafter hlength).2
  · exact List.forall_mem_map.mpr h.bucket
  · rw [List.head?_map, Option.map_map, hfirst]
    exact hhead
  · obtain ⟨last, hlast'⟩ := Option.isSome_iff_exists.mp (List.getLast?_isSome.mpr h.nonempty)
    rw [List.getLast?_map, Option.map_map, hlast, hlast']
    rfl
  · exact List.forall_mem_map.mpr fun o ho =>
      translate_noted hnotes (fun o ho => (hfits o ho).2) ho
  · refine fun slot new hget => Partition.noteAll_slots_lt hnotes (fun s n hs => ?_) hget
    rw [Indexes.fresh, ExtTreeMap.getElem?_empty] at hs
    cases hs

/-- What a file holds it holds behind a tree that is put there. -/
theorem Built.extend {bytes tree : Bytes} {lower : Key} {part : Partition} {entries : List Entry}
    (h : Built ix i bytes lower part entries) (htree : tree.length % pageSize = 0) :
    Built ix i (bytes ++ tree) lower part entries :=
  ⟨h.file, h.holds.extend htree, h.ascending, h.bucket, h.first, h.last, h.translate, h.slots⟩

/-- **An index with nothing open.** -/
structure Idle (disk : Disk) (shows : Partition → List Entry) (ix : Indexes) (i : Fin 3)
    (ds : List Delivery) (old : Bytes) : Prop where
  length : old.length = (ix.lanes i).next * pageSize
  pending : (ix.lanes i).pending = none
  handle : ((ix.lanes i).handle).getD [] = old
  parts : ∀ lower part, ix.parts[ix.route i lower]? = some part →
    let entries := (ds.flatMap (·.entries shows)).filter fun e => bucket (kind i) e.1 = lower
    part.Shows disk (kind i) lower entries ∨ Built ix i old lower part entries
  covered : ∀ e ∈ ds.flatMap (·.entries shows), ix.route i (bucket (kind i) e.1) ∈ ix.parts

/-- **Flushing an index** completes the open partition, if there is one. -/
theorem LaneState.flush (h : LaneState disk shows ix i ds old opened) (hlsn : ix.lsn < 2 ^ 64)
    (hsound : ∀ d ∈ ds, d.Sound disk shows ix.table (kind i)) :
    ∃ ix' old', ix.flush i = .ok ix' ∧ Apart i ix ix' ∧ Idle disk shows ix' i ds old' ∧
      ∀ lower, ix'.route i lower ∈ ix'.parts → ix.route i lower ∈ ix.parts ∨
        ∃ pending ∈ (ix.lanes i).pending, pending.route = ix.route i lower := by
  rw [Indexes.flush]
  cases hpending : (ix.lanes i).pending with
  | none =>
    obtain ⟨rfl, hhandle⟩ := h.idle hpending
    refine ⟨ix, old, rfl, .refl i ix, ⟨h.length, hpending, hhandle, h.parts, fun e he => ?_⟩,
      fun lower hlower => Or.inl hlower⟩
    rcases h.covered e he with ⟨o, ho, -⟩ | hmem
    · cases ho
    · exact hmem
  | some pending =>
    obtain ⟨hnew, lower, hbuilding, hopened⟩ := h.busy pending hpending
    have hfits : ∀ o ∈ opened, Fits o.1.1 ∧ Fits o.1.2 := fun o ho =>
      ⟨(hsound _ (h.came o ho)).1, (hsound _ (h.came o ho)).2.1⟩
    obtain ⟨tree, pages, hfinish, htree, hbuilt⟩ := hbuilding.finish h.length hlsn hfits
    have hwhole : tree.length % pageSize = 0 := by rw [htree, Nat.mul_mod_left]
    have hsize : (old ++ tree).length = ((ix.lanes i).next + pages) * pageSize := by
      rw [List.length_append, h.length, htree, Nat.add_mul]
    dsimp only
    rw [if_neg hnew, hbuilding.route, hfinish]
    refine ⟨_, old ++ tree, rfl, apart_update rfl rfl rfl rfl rfl (Or.inr rfl), ?_, ?_⟩
    · refine ⟨?_, ?_, ?_, ?_, ?_⟩
      · dsimp only
        rw [Function.update_self, hsize, Nat.mul_div_cancel _ (by decide)]
      · dsimp only
        rw [Function.update_self]
      · dsimp only
        rw [Function.update_self]
        rfl
      · intro lower' part hpart
        replace hpart : (ix.parts.insert (ix.route i lower) pending.part)[ix.route i lower']? =
          some part := hpart
        rw [ExtTreeMap.getElem?_insert] at hpart
        split at hpart
        · next heq =>
          obtain rfl := route_injective (Std.LawfulEqOrd.eq_of_compare heq)
          cases hpart
          rw [hopened] at hbuilt
          exact Or.inr ⟨hbuilt.file, hbuilt.holds, hbuilt.ascending, hbuilt.bucket, hbuilt.first,
            hbuilt.last, hbuilt.translate, hbuilt.slots⟩
        · refine (h.parts lower' part hpart).imp id fun hold => ?_
          have hextended := hold.extend hwhole
          exact ⟨hextended.file, hextended.holds, hextended.ascending, hextended.bucket,
            hextended.first, hextended.last, hextended.translate, hextended.slots⟩
      · intro e he
        refine ExtTreeMap.mem_insert.mpr ?_
        rcases h.covered e he with ⟨o, ho, rfl⟩ | hmem
        · rw [hbuilding.bucket o ho]
          exact Or.inl Std.ReflOrd.compare_self
        · exact Or.inr hmem
    · intro lower' hlower'
      rcases ExtTreeMap.mem_insert.mp hlower' with heq | hmem
      · exact Or.inr ⟨pending, rfl, hbuilding.route.trans (Std.LawfulEqOrd.eq_of_compare heq)⟩
      · exact Or.inl hmem

/-! ### What has been begun -/

/-- **What has been begun of an index**: its partitions belong to what was delivered to it, and
the one that is being built is another than those that are complete. -/
structure Begun (ix : Indexes) (i : Fin 3) (ds : List Delivery) : Prop where
  busy : ∀ pending ∈ (ix.lanes i).pending, pending.route ∉ ix.parts ∧
    ∃ d ∈ ds, pending.route = ix.route i (d.bucket (kind i))
  parts : ∀ lower, ix.route i lower ∈ ix.parts → ∃ d ∈ ds, d.bucket (kind i) = lower

/-- A complete partition has an entry, and that was delivered. -/
theorem exists_delivered (hsound : ∀ d ∈ ds, d.Sound disk shows ix.table (kind i))
    (hparts : ∀ lower part, ix.parts[ix.route i lower]? = some part →
      let entries := (ds.flatMap (·.entries shows)).filter fun e => bucket (kind i) e.1 = lower
      part.Shows disk (kind i) lower entries ∨ Built ix i old lower part entries)
    {lower : Key} (hmem : ix.route i lower ∈ ix.parts) :
    ∃ d ∈ ds, d.bucket (kind i) = lower := by
  obtain ⟨part, hpart⟩ :=
    Option.isSome_iff_exists.mp (ExtTreeMap.mem_iff_isSome_getElem?.mp hmem)
  have hfirst : (((ds.flatMap (·.entries shows)).filter fun e =>
      bucket (kind i) e.1 = lower).head?).map Prod.fst = some part.first :=
    (hparts lower part hpart).elim (fun h => h.first) fun h => h.first
  obtain ⟨e, he, -⟩ := Option.map_eq_some_iff.mp hfirst
  obtain ⟨hdelivered, hbucket⟩ := List.mem_filter.mp (List.mem_of_head? he)
  obtain ⟨d, hd, he⟩ := List.mem_flatMap.mp hdelivered
  exact ⟨d, hd, (Delivery.Sound.bucket_eq (hsound d hd) he).symm.trans (of_decide_eq_true hbucket)⟩

theorem LaneState.begun (h : LaneState disk shows ix i ds old opened)
    (hsound : ∀ d ∈ ds, d.Sound disk shows ix.table (kind i)) : Begun ix i ds where
  busy pending hpending := by
    obtain ⟨hnew, lower, hbuilding, -⟩ := h.busy pending hpending
    obtain ⟨o, os, ho⟩ := List.exists_cons_of_ne_nil hbuilding.nonempty
    have hmem : o ∈ opened := ho ▸ List.mem_cons_self
    refine ⟨hnew, _, h.came o hmem, ?_⟩
    rw [hbuilding.route, Delivery.bucket, hbuilding.bucket o hmem]
  parts _ hmem := exists_delivered hsound h.parts hmem

theorem Idle.begun (h : Idle disk shows ix i ds old)
    (hsound : ∀ d ∈ ds, d.Sound disk shows ix.table (kind i)) : Begun ix i ds where
  busy pending hpending := by
    rw [h.pending] at hpending
    cases hpending
  parts _ hmem := exists_delivered hsound h.parts hmem

/-- **There is no room** for another partition: with nothing of the index being built, there are
as many as there may be, and the delivery belongs to none of them. -/
structure Crowded (ix : Indexes) (i : Fin 3) (ds : List Delivery) (lower : Key) : Prop where
  begun : ∃ ix', Apart i ix ix' ∧ Begun ix' i ds ∧ (ix'.lanes i).pending = none ∧
    ix'.route i lower ∉ ix'.parts ∧ ix'.limit ≤ ix'.parts.size + ix'.pendingCount

/-! ### One delivery -/

/-- Nothing that was delivered lies in the bucket of a complete partition that comes later. -/
theorem filter_eq_nil_of_lt {entries : List Entry} {lower : Key} {k : ℕ}
    (h : ∀ e ∈ entries, toLex (bucket k e.1) < toLex lower) :
    (entries.filter fun e => bucket k e.1 = lower) = [] := by
  rw [List.filter_eq_nil_iff]
  intro e he heq
  exact (h e he).ne (congrArg toLex (of_decide_eq_true heq))

/-- What is flushed lies before the next delivery, unless that goes on with it. -/
theorem LaneState.flushed_lt (h : LaneState disk shows ix i ds old opened)
    {d : Delivery} (hbefore : ∀ d₀ ∈ ds, d₀.Before (kind i) d)
    (hother : ∀ pending ∈ (ix.lanes i).pending, pending.route ≠ ix.route i (d.bucket (kind i)))
    {lower : Key} (hlower : ix.route i lower ∈ ix.parts ∨
      ∃ pending ∈ (ix.lanes i).pending, pending.route = ix.route i lower) :
    toLex lower < toLex (d.bucket (kind i)) := by
  rcases hlower with hmem | ⟨pending, hpending, hroute⟩
  · exact h.sealed lower hmem d hbefore
  · obtain ⟨-, lower', hbuilding, -⟩ := h.busy pending hpending
    obtain rfl := route_injective (hroute.symm.trans hbuilding.route)
    obtain ⟨o, os, ho⟩ := List.exists_cons_of_ne_nil hbuilding.nonempty
    have hmem : o ∈ opened := ho ▸ List.mem_cons_self
    have hle := (hbefore _ (h.came o hmem)).bucket_le
    rw [Delivery.bucket, hbuilding.bucket o hmem] at hle
    refine lt_of_le_of_ne hle fun heq => hother pending hpending ?_
    rw [hroute, toLex_inj.mp heq]

/-- **Admitting a partition** fails for the limit only. -/
theorem admitPart_cases (ix : Indexes) :
    (ix.admitPart = .error (.limitExceeded "index partitions" ix.limit) ∧
        ix.limit ≤ ix.parts.size + ix.pendingCount) ∨ ix.admitPart = .ok () := by
  rw [Indexes.admitPart]
  split
  · next hfull => exact Or.inl ⟨rfl, hfull⟩
  · exact Or.inr rfl

/-- **A reused partition** is taken over, unless there are too many. -/
theorem LaneState.reuse (h : LaneState disk shows ix i ds old opened) (hlsn : ix.lsn < 2 ^ 64)
    (hsound : ∀ d ∈ ds, d.Sound disk shows ix.table (kind i)) {root : Root} {lower : Key}
    {part : Partition}
    (hpart : Delivery.Sound disk shows ix.table (kind i) (.reuse root lower part))
    (hbefore : ∀ d ∈ ds, d.Before (kind i) (.reuse root lower part)) :
    (ix.reuse i lower part root = .error (.limitExceeded "index partitions" ix.limit) ∧
        Crowded ix i ds lower) ∨
      ∃ ix' old', ix.reuse i lower part root = .ok ix' ∧ Apart i ix ix' ∧
        LaneState disk shows ix' i (ds ++ [.reuse root lower part]) old' [] := by
  obtain ⟨ix₁, old', hflush, hapart, hidle, hnewly⟩ := h.flush hlsn hsound
  have hshows := hpart.shows
  obtain ⟨info, hinfo, hid⟩ := hpart.1
  have hother : ∀ pending ∈ (ix.lanes i).pending, pending.route ≠ ix.route i lower := by
    intro pending hpending heq
    obtain ⟨-, lower', hbuilding, -⟩ := h.busy pending hpending
    obtain rfl := route_injective (heq.symm.trans hbuilding.route)
    obtain ⟨o, os, ho⟩ := List.exists_cons_of_ne_nil hbuilding.nonempty
    have hmem : o ∈ opened := ho ▸ List.mem_cons_self
    have hlt := (hbefore _ (h.came o hmem)).to_reuse
    rw [Delivery.bucket, hbuilding.bucket o hmem] at hlt
    exact lt_irrefl _ hlt
  have hlt {lower' : Key} (hmem : ix₁.route i lower' ∈ ix₁.parts) : toLex lower' < toLex lower :=
    h.flushed_lt hbefore hother (hnewly lower' hmem)
  have hnone : ix₁.route i lower ∉ ix₁.parts := fun hmem => lt_irrefl _ (hlt hmem)
  have hlisted : (root.files.find? fun info => info.id = part.file).isSome :=
    List.find?_isSome.mpr ⟨info, hinfo, decide_eq_true hid⟩
  obtain ⟨info', hfind⟩ := Option.isSome_iff_exists.mp hlisted
  rw [Indexes.reuse, hflush, ok_bind]
  rcases admitPart_cases ix₁ with ⟨hroom, hfull⟩ | hroom
  · rw [hroom, hapart.limit]
    exact Or.inl ⟨rfl, ix₁, hapart, hidle.begun (hapart.table ▸ hsound), hidle.pending, hnone,
      hfull⟩
  · rw [hroom, ok_bind, hfind]
    dsimp only
    rw [if_neg hnone]
    refine Or.inr ⟨_, old', rfl, hapart.trans (apart_update rfl rfl rfl rfl
      (Function.update_eq_self i ix₁.lanes).symm (Or.inr rfl)), ?_⟩
    have hall : (ds ++ [Delivery.reuse root lower part]).flatMap (·.entries shows) =
        ds.flatMap (·.entries shows) ++ shows part := by
      rw [List.flatMap_append, List.flatMap_singleton]
      rfl
    have hbelow : ∀ e ∈ ds.flatMap (·.entries shows),
        toLex (bucket (kind i) e.1) < toLex lower := fun e he => hlt (hidle.covered e he)
    refine ⟨hidle.length, fun _ => ⟨rfl, hidle.handle⟩, ?_, List.forall_mem_nil _, ?_, ?_, ?_⟩
    · intro pending hpending
      rw [hidle.pending] at hpending
      cases hpending
    · intro lower' part' hget
      replace hget : (ix₁.parts.insert (ix₁.route i lower) part)[ix₁.route i lower']? =
        some part' := hget
      rw [hall, List.filter_append]
      rw [ExtTreeMap.getElem?_insert] at hget
      split at hget
      · next heq =>
        obtain rfl := route_injective (Std.LawfulEqOrd.eq_of_compare heq)
        cases hget
        rw [filter_eq_nil_of_lt hbelow, List.nil_append,
          List.filter_eq_self.mpr fun e he => decide_eq_true (hshows.bucket e he)]
        exact Or.inl hshows
      · next hne =>
        have hnothing : ((shows part).filter fun e => bucket (kind i) e.1 = lower') = [] := by
          rw [List.filter_eq_nil_iff]
          intro e he heq
          apply hne
          rw [← of_decide_eq_true heq, hshows.bucket e he]
          exact Std.ReflOrd.compare_self
        rw [hnothing, List.append_nil]
        refine (hidle.parts lower' part' hget).imp id fun hbuilt => ?_
        exact ⟨hbuilt.file, hbuilt.holds, hbuilt.ascending, hbuilt.bucket, hbuilt.first,
          hbuilt.last, hbuilt.translate, hbuilt.slots⟩
    · intro lower' hmem d' hd'
      have hafter := (hd' _ (List.mem_append_right _ (List.mem_singleton_self _))).of_reuse
      rcases ExtTreeMap.mem_insert.mp hmem with heq | hmem
      · rw [← route_injective (Std.LawfulEqOrd.eq_of_compare heq)]
        exact hafter
      · exact (hlt hmem).trans hafter
    · intro e he
      rw [hall] at he
      refine Or.inr (ExtTreeMap.mem_insert.mpr ?_)
      rcases List.mem_append.mp he with he | he
      · exact Or.inr (hidle.covered e he)
      · rw [hshows.bucket e he]
        exact Or.inl Std.ReflOrd.compare_self

/-- **An entry is put behind the others** of a partition. -/
theorem push_eq {pending : Pending} {lower key first : Key} {value : IndexValue}
    {dependency : Option FileId} {leaves : List (List Entry)}
    (hroute : pending.route = ix.route i lower)
    (hwriter : IndexWriter.Filled old ix.lsn (ix.lanes i).next (opened.map Prod.fst)
      pending.writer leaves)
    (hnotes : Partition.noteAll opened (ix.fresh i first) = .ok pending.part)
    (hfirst : (opened ++ [((key, value), dependency)]).head?.map (fun o => o.1.1) = some first)
    (hbucket : ∀ o ∈ opened, bucket (kind i) o.1.1 = lower) (hkey : bucket (kind i) key = lower)
    (hascending : SortedList.Ascending order
      ((opened ++ [((key, value), dependency)]).map Prod.fst))
    (hslot : kind i = 3 → ∃ slot, entitySlot value = .ok slot) :
    ∃ pending', ix.push i pending key value dependency = .ok { ix with
        lanes := Function.update ix.lanes i { ix.lanes i with pending := some pending' } } ∧
      Building { ix with
          lanes := Function.update ix.lanes i { ix.lanes i with pending := some pending' } }
        i old pending' lower (opened ++ [((key, value), dependency)]) := by
  have hmap : (opened ++ [((key, value), dependency)]).map Prod.fst =
      opened.map Prod.fst ++ [(key, value)] := List.map_append
  obtain ⟨w, leaves', happend, hfilled⟩ := hwriter.append (hmap ▸ hascending)
  have hfile := (Partition.noteAll_fields hnotes).1
  obtain ⟨part, hpart⟩ := Partition.exists_note
    (fun hkind => hslot (by rw [← hkind, hfile]; rfl)) dependency
  refine ⟨{ pending with writer := w, part }, ?_, ?_⟩
  · rw [Indexes.push, happend]
    dsimp only
    rw [hpart]
    rfl
  · refine ⟨hroute, List.append_ne_nil_of_right_ne_nil _ (List.cons_ne_nil _ _), ?_, hascending,
      ⟨leaves', ?_⟩, first, hfirst, ?_⟩
    · exact List.forall_mem_append.mpr ⟨hbucket, List.forall_mem_singleton.mpr hkey⟩
    · dsimp only
      rw [Function.update_self, hmap]
      exact hfilled
    · have hfresh : Indexes.fresh { ix with
          lanes := Function.update ix.lanes i
            { ix.lanes i with pending := some { pending with writer := w, part } } } i first =
          ix.fresh i first := by
        rw [Indexes.fresh, Indexes.fresh]
        dsimp only
        rw [Function.update_self]
        rfl
      rw [hfresh, Partition.noteAll_concat, hnotes]
      exact hpart

/-- What there is of an index behind an entry, given what there was in front of it. -/
theorem LaneState.of_pushed {key : Key} {value : IndexValue} {dependency : Option FileId}
    {pending : Pending} (hlen : old.length = (ix.lanes i).next * pageSize)
    (hparts : ∀ lower part, ix.parts[ix.route i lower]? = some part →
      let entries := (ds.flatMap (·.entries shows)).filter fun e => bucket (kind i) e.1 = lower
      part.Shows disk (kind i) lower entries ∨ Built ix i old lower part entries)
    (hlt : ∀ lower, ix.route i lower ∈ ix.parts → toLex lower < toLex (bucket (kind i) key))
    (hcame : ∀ o ∈ opened, Delivery.entry o.1.1 o.1.2 o.2 ∈ ds)
    (hcovered : ∀ e ∈ ds.flatMap (·.entries shows), (∃ o ∈ opened, o.1 = e) ∨
      ix.route i (bucket (kind i) e.1) ∈ ix.parts)
    (hopened : opened.map Prod.fst = (ds.flatMap (·.entries shows)).filter fun e =>
      bucket (kind i) e.1 = bucket (kind i) key)
    (hix : ix' = { ix with
      lanes := Function.update ix.lanes i { ix.lanes i with pending := some pending } })
    (hbuilding : Building ix' i old pending (bucket (kind i) key)
      (opened ++ [((key, value), dependency)])) :
    LaneState disk shows ix' i (ds ++ [.entry key value dependency]) old
      (opened ++ [((key, value), dependency)]) := by
  have hall : (ds ++ [Delivery.entry key value dependency]).flatMap (·.entries shows) =
      ds.flatMap (·.entries shows) ++ [(key, value)] := by
    rw [List.flatMap_append, List.flatMap_singleton]
    rfl
  have hlane : ix'.lanes i = { ix.lanes i with pending := some pending } := by
    rw [hix]
    exact Function.update_self ..
  have hparts' : ix'.parts = ix.parts := by rw [hix]
  have hroute (lower : Key) : ix'.route i lower = ix.route i lower := by
    rw [hix]
    rfl
  refine ⟨?_, ?_, ?_, ?_, ?_, ?_, ?_⟩
  · rw [hlane]
    exact hlen
  · intro hnone
    rw [hlane] at hnone
    cases hnone
  · intro pending' hpending
    rw [hlane] at hpending
    cases hpending
    refine ⟨fun hmem => ?_, bucket (kind i) key, hbuilding, ?_⟩
    · rw [hbuilding.route, hroute, hparts'] at hmem
      exact lt_irrefl _ (hlt _ hmem)
    · rw [hall, List.filter_append, List.map_append, hopened]
      congr 1
      refine (List.filter_eq_self.mpr fun e he => ?_).symm
      rw [List.mem_singleton.mp he]
      exact decide_eq_true rfl
  · refine List.forall_mem_append.mpr ⟨fun o ho => List.mem_append_left _ (hcame o ho), ?_⟩
    exact List.forall_mem_singleton.mpr (List.mem_append_right _ (List.mem_singleton_self _))
  · intro lower part hpart
    rw [hroute, hparts'] at hpart
    have hbelow := hlt lower (ExtTreeMap.mem_iff_isSome_getElem?.mpr (by rw [hpart]; rfl))
    have hnothing :
      ([((key, value) : Entry)].filter fun e => bucket (kind i) e.1 = lower) = [] := by
      rw [List.filter_eq_nil_iff]
      intro e he heq
      obtain rfl := List.mem_singleton.mp he
      exact hbelow.ne' (congrArg toLex (of_decide_eq_true heq))
    rw [hall, List.filter_append, hnothing, List.append_nil]
    refine (hparts lower part hpart).imp id fun hbuilt => ?_
    refine ⟨?_, hbuilt.holds, hbuilt.ascending, hbuilt.bucket, hbuilt.first, hbuilt.last,
      hbuilt.translate, hbuilt.slots⟩
    rw [hbuilt.file, hix]
    rfl
  · intro lower hmem d' hd'
    rw [hroute, hparts'] at hmem
    exact (hlt lower hmem).trans_le
      (hd' _ (List.mem_append_right _ (List.mem_singleton_self _))).bucket_le
  · intro e he
    rw [hall] at he
    rcases List.mem_append.mp he with he | he
    · rcases hcovered e he with ⟨o, ho, heq⟩ | hmem
      · exact Or.inl ⟨o, List.mem_append_left _ ho, heq⟩
      · rw [hroute, hparts']
        exact Or.inr hmem
    · obtain rfl := List.mem_singleton.mp he
      exact Or.inl ⟨_, List.mem_append_right _ (List.mem_singleton_self _), rfl⟩

/-- **An entry is delivered**, unless there are too many partitions. -/
theorem LaneState.append (h : LaneState disk shows ix i ds old opened) (hlsn : ix.lsn < 2 ^ 64)
    (hsound : ∀ d ∈ ds, d.Sound disk shows ix.table (kind i)) {key : Key} {value : IndexValue}
    {dependency : Option FileId}
    (hentry : Delivery.Sound disk shows ix.table (kind i) (.entry key value dependency))
    (hbefore : ∀ d ∈ ds, d.Before (kind i) (.entry key value dependency))
    (hnew : disk (ix.file i) = none) :
    (ix.append disk i key value dependency =
        .error (.limitExceeded "index partitions" ix.limit) ∧
        Crowded ix i ds (bucket (kind i) key)) ∨
      ∃ ix' old' opened', ix.append disk i key value dependency = .ok ix' ∧ Apart i ix ix' ∧
        LaneState disk shows ix' i (ds ++ [.entry key value dependency]) old' opened' := by
  obtain ⟨-, -, hslot⟩ := hentry
  rw [Indexes.append]
  cases hsame : (ix.lanes i).pending.filter (·.route = ix.route i (bucket (kind i) key)) with
  | some pending =>
    -- the open partition goes on
    obtain ⟨hpending, hroute⟩ := Option.filter_eq_some_iff.mp hsame
    replace hroute := of_decide_eq_true hroute
    obtain ⟨hfresh, lower, hbuilding, hopened⟩ := h.busy pending hpending
    obtain rfl := route_injective (hroute.symm.trans hbuilding.route)
    obtain ⟨leaves, hwriter⟩ := hbuilding.writer
    obtain ⟨first, hhead, hnotes⟩ := hbuilding.part
    have hfirst : (opened ++ [((key, value), dependency)]).head?.map (fun o => o.1.1) =
        some first := by
      obtain ⟨o, os, rfl⟩ := List.exists_cons_of_ne_nil hbuilding.nonempty
      exact hhead
    have hascending : SortedList.Ascending order
        ((opened ++ [((key, value), dependency)]).map Prod.fst) := by
      rw [List.map_append]
      refine List.pairwise_append.mpr ⟨hbuilding.ascending, List.pairwise_singleton _ _, ?_⟩
      intro e he e' he'
      obtain ⟨o, ho, rfl⟩ := List.mem_map.mp he
      obtain rfl := List.mem_singleton.mp he'
      exact hbefore _ (h.came o ho)
    obtain ⟨pending', hpush, hbuilding'⟩ := push_eq hroute hwriter hnotes hfirst hbuilding.bucket
      rfl hascending hslot
    exact Or.inr ⟨_, old, _, hpush,
      apart_lanes rfl rfl rfl rfl rfl rfl,
      .of_pushed h.length h.parts (fun lower hmem => h.sealed lower hmem _ hbefore) h.came
        h.covered hopened rfl hbuilding'⟩
  | none =>
    -- another partition begins, behind the one that was open
    obtain ⟨ix₁, old', hflush, hapart, hidle, hnewly⟩ := h.flush hlsn hsound
    have hother : ∀ pending ∈ (ix.lanes i).pending,
        pending.route ≠ ix.route i (bucket (kind i) key) := by
      intro pending hpending heq
      rw [Option.mem_def.mp hpending, Option.filter_some, if_pos (decide_eq_true heq)] at hsame
      cases hsame
    have hlt : ∀ lower, ix₁.route i lower ∈ ix₁.parts →
        toLex lower < toLex (bucket (kind i) key) := fun lower hmem =>
      h.flushed_lt hbefore hother (hnewly lower hmem)
    have hnone : ix₁.route i (bucket (kind i) key) ∉ ix₁.parts := fun hmem =>
      lt_irrefl _ (hlt _ hmem)
    rw [hflush, ok_bind]
    rcases admitPart_cases ix₁ with ⟨hroom, hfull⟩ | hroom
    · rw [hroom, hapart.limit]
      exact Or.inl ⟨rfl, ix₁, hapart, hidle.begun (hapart.table ▸ hsound), hidle.pending, hnone,
        hfull⟩
    · have hstart : ix₁.start disk i key = .ok
          { writer := .fromFile old' ix₁.lsn (ix₁.lanes i).next
            route := ix₁.route i (bucket (kind i) key)
            part := ix₁.fresh i key } := by
        have hhandle := hidle.handle
        rw [Indexes.start]
        cases hopen : (ix₁.lanes i).handle with
        | some bytes =>
          rw [hopen] at hhandle
          rw [← hhandle]
          rfl
        | none =>
          rw [hopen] at hhandle
          dsimp only
          rw [hapart.file, hnew, ← hhandle]
          rfl
      have hnothing : ((ds.flatMap (·.entries shows)).filter fun e =>
          bucket (kind i) e.1 = bucket (kind i) key) = [] :=
        filter_eq_nil_of_lt fun e he => hlt _ (hidle.covered e he)
      have hfilled := @IndexWriter.filled_fromFile old' ix₁.lsn (ix₁.lanes i).next
      obtain ⟨pending', hpush, hbuilding'⟩ := @push_eq ix₁ i old' []
        { writer := .fromFile old' ix₁.lsn (ix₁.lanes i).next
          route := ix₁.route i (bucket (kind i) key)
          part := ix₁.fresh i key } (bucket (kind i) key) key key value dependency []
        rfl hfilled rfl rfl (List.forall_mem_nil _) rfl (List.pairwise_singleton _ _) hslot
      rw [hroom, ok_bind, if_neg hnone, hstart, ok_bind]
      exact Or.inr ⟨_, old', _, hpush, hapart.trans (apart_lanes rfl rfl rfl rfl rfl rfl),
        .of_pushed hidle.length hidle.parts hlt (List.forall_mem_nil _)
          (fun e he => Or.inr (hidle.covered e he)) hnothing.symm rfl hbuilding'⟩

end Lanes

end Indexes

end EveDB
