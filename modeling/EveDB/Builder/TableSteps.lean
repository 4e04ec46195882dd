import EveDB.Builder.Job
import EveDB.Builder.Lanes

/-!
# What a table writer does to its indexes

Every step of a table writer is a run of deliveries to its indexes (`FullTableWriter.Did`). What
goes to the primary index is one entry for an entity that is carried or written anew
(`FullTableWriter.carry_did`, `FullTableWriter.append_did`), and one partition for a bucket that is
taken over; a history goes to the other two (`FullTableWriter.copyHistory_did`).
-/

namespace EveDB

open Std Store Index Indexes

/-- What was in a directory is still there. -/
theorem Disk.none_of_write {disk : Disk} {written : List (FileId × Bytes)} {file : FileId}
    (h : disk.write written file = none) : disk file = none := by
  induction written generalizing disk with
  | nil => exact h
  | cons other written ih =>
    rw [Disk.write, List.foldl_cons, ← Disk.write] at h
    have hnone := ih h
    rw [Function.update_apply] at hnone
    split at hnone
    · cases hnone
    · exact hnone

/-- **What there is of the history segments**: they are numbered, and none of their files was in
the directory. -/
structure TableWriter.Segmented (disk : Disk) (w : TableWriter) : Prop where
  names : w.segments.map Prod.fst = (List.range (w.segment + 1)).map w.historyFile
  new : ∀ file ∈ w.segments, disk file.1 = none
  few : w.segment ≤ 65535

/-- Partitions that are taken over come from manifests whose files are those of some
descriptions. -/
def Delivery.From (here : FileInfo → Prop) : Delivery → Prop
  | .entry _ _ _ => True
  | .reuse root _ _ => ∀ info ∈ root.files, here info

namespace HeapWriter

/-- **A heap file goes on**: what is stored there stays. -/
structure Keeps (w w' : HeapWriter) : Prop where
  lsn_eq : w'.lsn = w.lsn
  keeps : ∀ written, w.Paged written →
    ∃ written', w'.Paged written' ∧ Extends (written ++ [w.page]) (written' ++ [w'.page])

/-- **A record is stored** in a heap file. -/
def Has (w : HeapWriter) (location : ℕ) (bytes : Bytes) : Prop :=
  ∃ written, w.Paged written ∧ StoredAt (written ++ [w.page]) location bytes

theorem Keeps.refl (w : HeapWriter) : w.Keeps w :=
  ⟨rfl, fun written hpaged => ⟨written, hpaged, .refl _⟩⟩

theorem Keeps.trans {w w' w'' : HeapWriter} (h : w.Keeps w') (h' : w'.Keeps w'') : w.Keeps w'' := by
  refine ⟨h'.lsn_eq.trans h.lsn_eq, fun written hpaged => ?_⟩
  obtain ⟨written', hpaged', hextends⟩ := h.keeps written hpaged
  obtain ⟨written'', hpaged'', hextends'⟩ := h'.keeps written' hpaged'
  exact ⟨written'', hpaged'', hextends.trans hextends'⟩

theorem Has.mono {w w' : HeapWriter} {location : ℕ} {bytes : Bytes} (h : w.Has location bytes)
    (hkeeps : w.Keeps w') : w'.Has location bytes := by
  obtain ⟨written, hpaged, hstored⟩ := h
  obtain ⟨written', hpaged', hextends⟩ := hkeeps.keeps written hpaged
  exact ⟨written', hpaged', hstored.mono hextends⟩

/-- **A record is stored** in a finished heap file. -/
def HasFile (lsn : UInt64) (file : Bytes) (location : ℕ) (bytes : Bytes) : Prop :=
  ∃ pages, Sealed lsn pages ∧ file = joinedPages pages ∧ StoredAt pages location bytes

theorem Has.finish {w : HeapWriter} {location : ℕ} {bytes : Bytes} (h : w.Has location bytes) :
    HasFile w.lsn w.finish location bytes := by
  obtain ⟨written, hpaged, hstored⟩ := h
  obtain ⟨pages, hsealed, hfinish, hextends⟩ := hpaged.finish
  exact ⟨pages, hsealed, hfinish, hstored.mono hextends⟩

end HeapWriter

namespace FullTableWriter

/-- **What there is of the heap files**: pages, with a record for each entity written anew. -/
structure Stores (w : FullTableWriter) : Prop where
  current : ∃ written, w.current.Paged written
  bases : ∃ written, w.bases.Paged written
  entities : w.entities ≤ w.current.frontier

/-- The files a history goes on in are those of some descriptions. -/
def Reuses (here : FileInfo → Prop) (w : FullTableWriter) : Prop :=
  ∀ (file : FileId) (info : FileInfo), w.reused[file]? = some info → info.id = file ∧ here info

/-- **What a step of a table writer does to the indexes**: it makes these deliveries, and writes so
many entities anew. Its heap files go on, and the files of others that it refers to are `here`. -/
structure Did (disk : Disk) (here : FileInfo → Prop) (w w' : FullTableWriter)
    (steps : List (Fin 3 × Delivery)) (n : ℕ) : Prop where
  indexes : deliverAll disk steps w.indexes = .ok w'.indexes
  table : w'.table = w.table
  generation : w'.generation = w.generation
  slot : w'.slot = w.slot
  rewriteHistory : w'.rewriteHistory = w.rewriteHistory
  rewriteIndexes : w'.rewriteIndexes = w.rewriteIndexes
  entities : w'.entities = w.entities + n
  segments : w.toTableWriter.Segmented disk → w'.toTableWriter.Segmented disk
  stores : w.Stores → w'.Stores
  current : w.current.Keeps w'.current
  bases : w.bases.Keeps w'.bases
  reused : w.Reuses here → w'.Reuses here
  sources : ∀ step ∈ steps, step.2.From here

/-- **A step that leaves the primary index alone.** -/
def Aside (disk : Disk) (here : FileInfo → Prop) (w w' : FullTableWriter) : Prop :=
  ∃ steps, Did disk here w w' steps 0 ∧ delivered primaryIndex steps = []

variable {disk : Disk} {here : FileInfo → Prop} {storage : Storage} {w w' w'' : FullTableWriter}
  {steps more : List (Fin 3 × Delivery)} {n m : ℕ}

theorem Did.refl (disk : Disk) (here : FileInfo → Prop) (w : FullTableWriter) :
    Did disk here w w [] 0 :=
  ⟨rfl, rfl, rfl, rfl, rfl, rfl, rfl, fun h => h, fun h => h, .refl _, .refl _, fun h => h,
    List.forall_mem_nil _⟩

theorem Did.trans (h : Did disk here w w' steps n) (h' : Did disk here w' w'' more m) :
    Did disk here w w'' (steps ++ more) (n + m) where
  indexes := by rw [deliverAll_append, h.indexes, ok_bind, h'.indexes]
  table := h'.table.trans h.table
  generation := h'.generation.trans h.generation
  slot := h'.slot.trans h.slot
  rewriteHistory := h'.rewriteHistory.trans h.rewriteHistory
  rewriteIndexes := h'.rewriteIndexes.trans h.rewriteIndexes
  entities := by rw [h'.entities, h.entities, Nat.add_assoc]
  segments hsegments := h'.segments (h.segments hsegments)
  stores hstores := h'.stores (h.stores hstores)
  current := h.current.trans h'.current
  bases := h.bases.trans h'.bases
  reused hreused := h'.reused (h.reused hreused)
  sources := List.forall_mem_append.mpr ⟨h.sources, h'.sources⟩

theorem Aside.refl (disk : Disk) (here : FileInfo → Prop) (w : FullTableWriter) :
    Aside disk here w w := ⟨[], .refl disk here w, rfl⟩

theorem Aside.trans (h : Aside disk here w w') (h' : Aside disk here w' w'') :
    Aside disk here w w'' := by
  obtain ⟨steps, hdid, hsteps⟩ := h
  obtain ⟨more, hdid', hmore⟩ := h'
  exact ⟨_, hdid.trans hdid', by rw [delivered_append, hsteps, hmore]; rfl⟩

/-- **Steps one after the other** that leave the primary index alone. -/
theorem Aside.foldlM {α : Type} {step : FullTableWriter → α → Result FullTableWriter} {l : List α}
    (h : ∀ a ∈ l, ∀ w w', step w a = .ok w' → Aside disk here w w')
    (hok : l.foldlM step w = .ok w') :
    Aside disk here w w' := by
  induction l generalizing w with
  | nil =>
    cases hok
    exact .refl disk here _
  | cons a l ih =>
    obtain ⟨ha, hl⟩ := List.forall_mem_cons.mp h
    rw [List.foldlM_cons] at hok
    obtain ⟨w₁, hstep, hok⟩ := bind_eq_ok.mp hok
    exact (ha w w₁ hstep).trans (ih hl hok)

/-! ### Steps -/

theorem deliver_did {i : Fin 3} {d : Delivery} (hok : w.deliver disk i d = .ok w')
    (hfrom : d.From here) :
    Did disk here w w' [(i, d)] 0 := by
  obtain ⟨indexes, hdeliver, hok⟩ := bind_eq_ok.mp hok
  cases hok
  refine ⟨?_, rfl, rfl, rfl, rfl, rfl, rfl, fun h => ⟨h.names, h.new, h.few⟩,
    fun h => ⟨h.current, h.bases, h.entities⟩, .refl _, .refl _, fun h => h,
    List.forall_mem_singleton.mpr hfrom⟩
  rw [deliverAll, hdeliver]
  rfl

/-- A delivery to one of the history indexes. -/
theorem deliver_aside {i : Fin 3} {d : Delivery} (hi : i ≠ primaryIndex)
    (hok : w.deliver disk i d = .ok w') (hfrom : d.From here) : Aside disk here w w' :=
  ⟨_, deliver_did hok hfrom, delivered_singleton_of_ne hi.symm⟩

/-- What remembering a file changes. -/
theorem remember_eq_ok {root : Root} {file : FileId} (hok : w.remember root file = .ok w') :
    w' = w ∨ ∃ info sequence, file ∉ w.reused ∧ info ∈ root.files ∧ info.id = file ∧
      root.historyGenerations[file.generation]? = some sequence ∧
      w' = { w with
        reused := w.reused.insert file info
        historyGenerations := w.historyGenerations.insert file.generation sequence } := by
  rw [remember] at hok
  split at hok
  · cases hok
    exact Or.inl rfl
  · next hnew =>
    split at hok
    · cases hok
    · next info hinfo =>
      split at hok
      · cases hok
      · next sequence hsequence =>
        cases hok
        have hid := List.find?_some hinfo
        exact Or.inr ⟨info, sequence, hnew, List.mem_of_find?_eq_some hinfo,
          of_decide_eq_true hid, hsequence, rfl⟩

theorem remember_aside {root : Root} {file : FileId} (hhere : ∀ info ∈ root.files, here info)
    (hok : w.remember root file = .ok w') : Aside disk here w w' := by
  rcases remember_eq_ok hok with rfl | ⟨info, sequence, -, hinfo, hid, -, rfl⟩
  · exact .refl disk here _
  · refine ⟨[], ⟨rfl, rfl, rfl, rfl, rfl, rfl, rfl, fun h => h,
      fun h => ⟨h.current, h.bases, h.entities⟩, .refl _, .refl _, fun h file' found hfound => ?_,
      List.forall_mem_nil _⟩, rfl⟩
    change (w.reused.insert file info)[file']? = some found at hfound
    rw [ExtTreeMap.getElem?_insert] at hfound
    split at hfound
    · next heq =>
      cases hfound
      exact ⟨hid.trans (LawfulEqOrd.eq_of_compare heq), hhere info hinfo⟩
    · exact h file' found hfound

theorem rememberAll_aside {root : Root} {part : Partition} (hhere : ∀ info ∈ root.files, here info)
    (hok : w.rememberAll root part = .ok w') : Aside disk here w w' :=
  .foldlM (fun _ _ _ _ h => remember_aside hhere h) hok

/-- **A partition that is taken over**: its files are remembered, and it is delivered. -/
theorem carryPartition_did {root : Root} {slots : List (Option ℕ)} {i : Fin 3}
    {entry : Route × Partition} (hhere : ∀ info ∈ root.files, here info)
    (hok : w.carryPartition disk root slots i entry = .ok w') :
    ∃ part steps, entry.2.carry slots = .ok part ∧ Did disk here w w' steps 0 ∧
      delivered primaryIndex steps =
        if i = primaryIndex then [.reuse root entry.1.2.2 part] else [] := by
  obtain ⟨part, hcarry, hok⟩ := bind_eq_ok.mp hok
  obtain ⟨w₁, hremember, hok⟩ := bind_eq_ok.mp hok
  obtain ⟨steps, hdid, hsteps⟩ := @rememberAll_aside disk here _ _ _ _ hhere hremember
  refine ⟨part, _, hcarry, hdid.trans (deliver_did hok hhere), ?_⟩
  rw [delivered_append, hsteps, List.nil_append]
  split
  · next hi =>
    rw [← hi]
    exact delivered_singleton_self
  · next hi => exact delivered_singleton_of_ne (Ne.symm hi)

theorem carryPartition_aside {root : Root} {slots : List (Option ℕ)} {i : Fin 3}
    (hhere : ∀ info ∈ root.files, here info) (hi : i ≠ primaryIndex) {entry : Route × Partition}
    (hok : w.carryPartition disk root slots i entry = .ok w') : Aside disk here w w' := by
  obtain ⟨part, steps, -, hdid, hsteps⟩ := carryPartition_did hhere hok
  rw [if_neg hi] at hsteps
  exact ⟨steps, hdid, hsteps⟩

theorem historyIndex_ne : historyIndex ≠ primaryIndex := by decide

theorem snapshotIndex_ne : snapshotIndex ≠ primaryIndex := by decide

theorem carryPartitionHistory_aside {root : Root} {lower upper : ℕ} {slots : List (Option ℕ)}
    (hhere : ∀ info ∈ root.files, here info)
    (hok : w.carryPartitionHistory disk root lower upper slots = .ok w') :
    Aside disk here w w' := by
  refine .foldlM (fun i hi w₁ w₂ h => .foldlM (fun entry _ _ _ h => ?_) h) hok
  refine carryPartition_aside hhere ?_ h
  rcases List.mem_cons.mp hi with rfl | hi
  · exact historyIndex_ne
  · rw [List.mem_singleton.mp hi]
    exact snapshotIndex_ne

/-- What storing a record returns. -/
theorem store_eq_ok {file : FileId} {bytes : Bytes} {h h' : HeapWriter} {location : ℕ}
    (hok : h.store storage file bytes = .ok (location, h')) :
    (HeapWriter.append bytes).run h = (.ok location, h') ∧ h'.file.length < 2 ^ 53 := by
  rw [HeapWriter.store] at hok
  split at hok
  · cases hok
  · next heq =>
    obtain ⟨⟨⟩, hwrite, hok⟩ := bind_eq_ok.mp hok
    cases hok
    exact ⟨heq, Storage.length_lt hwrite⟩

/-- **A record that is stored** has a location of seven bytes, behind those before it. -/
theorem store_paged {file : FileId} {bytes : Bytes} {h h' : HeapWriter} {location : ℕ}
    {written : List SlottedPage} (hpaged : h.Paged written)
    (hok : h.store storage file bytes = .ok (location, h')) :
    (∃ written', h'.Paged written') ∧ location < 2 ^ 56 ∧ h.frontier ≤ location ∧
      location < h'.frontier := by
  obtain ⟨hrun, hlength⟩ := store_eq_ok hok
  rcases hpaged.step bytes with ⟨location', h₁, written', hrun', -, -, happended⟩ | ⟨e, hrun', -⟩
  · cases hrun'.symm.trans hrun
    have hfile : h'.file.length = written'.length * pageSize := by
      rw [happended.paged.file]
      exact length_joinedPages written'
    have hid := happended.paged.page.id_eq
    have hcount := happended.paged.page.recordCount_lt
    have hbehind := happended.behind
    refine ⟨⟨written', happended.paged⟩, ?_, happended.fresh, hbehind⟩
    rw [hfile, pageSize] at hlength
    rw [HeapWriter.frontier, hid] at hbehind
    omega
  · cases hrun'.symm.trans hrun

/-- It is stored behind what there was. -/
theorem store_keeps {file : FileId} {bytes : Bytes} {h h' : HeapWriter} {location : ℕ}
    {written : List SlottedPage} (hpaged : h.Paged written)
    (hok : h.store storage file bytes = .ok (location, h')) :
    h.Keeps h' ∧ h'.Has location bytes := by
  obtain ⟨hrun, -⟩ := store_eq_ok hok
  have happended {pages : List SlottedPage} (hpages : h.Paged pages) :
      ∃ pages', HeapWriter.Appended h h' pages pages' bytes location := by
    rcases hpages.step bytes with ⟨location', h₁, pages', hrun', -, -, happended⟩ | ⟨e, hrun', -⟩
    · cases hrun'.symm.trans hrun
      exact ⟨pages', happended⟩
    · cases hrun'.symm.trans hrun
  obtain ⟨written', hstored⟩ := happended hpaged
  refine ⟨⟨hstored.lsn_eq, fun pages hpages => ?_⟩, written', hstored.paged, hstored.stored⟩
  obtain ⟨pages', hpages'⟩ := happended hpages
  exact ⟨pages', hpages'.paged, hpages'.keeps⟩

theorem appendSnapshot_aside {id : ℕ} {state : Entity}
    (hok : w.appendSnapshot disk storage id state = .ok w') : Aside disk here w w' := by
  obtain ⟨⟨location, snapshots⟩, -, hok⟩ := bind_eq_ok.mp hok
  obtain ⟨steps, hdid, hsteps⟩ := @deliver_aside _ here _ _ _ _ snapshotIndex_ne hok trivial
  exact ⟨steps, ⟨hdid.indexes, hdid.table, hdid.generation, hdid.slot, hdid.rewriteHistory,
    hdid.rewriteIndexes, hdid.entities, hdid.segments,
    fun h => hdid.stores ⟨h.current, h.bases, h.entities⟩, hdid.current, hdid.bases, hdid.reused,
    hdid.sources⟩, hsteps⟩

/-- Making room opens a segment whose file is not there. -/
theorem makeRoom_segmented {payload : Bytes} {w w' : TableWriter}
    (hok : (TableWriter.makeRoom disk payload).run w = (.ok (), w')) :
    w'.indexes = w.indexes ∧ w'.table = w.table ∧ w'.generation = w.generation ∧
      (w' = w ∨ w'.segments = w.segments ++ [(w.historyFile (w.segment + 1), [])] ∧
        w'.segment = w.segment + 1 ∧ disk (w.historyFile (w.segment + 1)) = none) := by
  obtain ⟨w₀, _, hget, hok⟩ := Fallible.run_bind_eq_ok.mp hok
  cases hget
  split at hok
  · obtain ⟨w₁, _, hget, hok⟩ := Fallible.run_bind_eq_ok.mp hok
    cases hget
    split at hok
    · cases hok
    · next segment hsegment =>
      obtain ⟨rfl, -⟩ := checkedAdd_eq_some.mp hsegment
      obtain ⟨⟨⟩, _, hmodify, hok⟩ := Fallible.run_bind_eq_ok.mp hok
      cases hmodify
      split at hok
      · cases hok
      · next hnone =>
        cases hok
        exact ⟨rfl, rfl, rfl, Or.inr
          ⟨rfl, rfl, Disk.none_of_write (Option.not_isSome_iff_eq_none.mp hnone)⟩⟩
  · cases hok
    exact ⟨rfl, rfl, rfl, Or.inl rfl⟩

theorem appendEvent_aside {id : ℕ} {event : Event} (hok : w.appendEvent disk id event = .ok w') :
    Aside disk here w w' := by
  rw [appendEvent] at hok
  split at hok
  · next base hbase =>
    cases hok
    obtain ⟨w₁, location, indexes, hroom, hlocation, hindexes, rfl⟩ :=
      TableWriter.appendEvent_eq_ok hbase
    obtain ⟨hsame, htable, hgeneration, hsegments⟩ := makeRoom_segmented hroom
    have hfile : w₁.historyFile = w.historyFile := by
      funext segment
      rw [TableWriter.historyFile, TableWriter.historyFile, htable, hgeneration]
    have hfew : w₁.segment ≤ 65535 := by
      rw [eventLocation] at hlocation
      split at hlocation
      · cases hlocation
      · omega
    refine ⟨[(historyIndex, .entry (id, event.version) (w₁.generation, location)
      (some (w₁.historyFile w₁.segment)))], ⟨?_, htable, hgeneration, rfl, rfl, rfl, rfl,
      fun h => ⟨?_, ?_, hfew⟩, fun h => ⟨h.current, h.bases, h.entities⟩, .refl _, .refl _,
      fun h => h, List.forall_mem_singleton.mpr trivial⟩,
      delivered_singleton_of_ne historyIndex_ne.symm⟩
    · rw [deliverAll, Indexes.deliver, ← hsame, hindexes]
      rfl
    · -- what was appended to keeps its name
      have hnames : w₁.segments.map Prod.fst =
          (List.range (w₁.segment + 1)).map w₁.historyFile := by
        rw [hfile]
        rcases hsegments with rfl | ⟨hsegments, hsegment, -⟩
        · exact h.names
        · rw [hsegments, hsegment, List.map_append, h.names, List.range_succ (n := w.segment + 1),
            List.map_append]
          rfl
      rw [TableWriter.segments, List.map_append] at hnames ⊢
      exact hnames
    · have hnew : ∀ file ∈ w₁.segments, disk file.1 = none := by
        rcases hsegments with rfl | ⟨hsegments, -, hnone⟩
        · exact h.new
        · rw [hsegments]
          exact List.forall_mem_append.mpr ⟨h.new, List.forall_mem_singleton.mpr hnone⟩
      obtain ⟨hfull, hopen⟩ := List.forall_mem_append.mp hnew
      exact List.forall_mem_append.mpr
        ⟨hfull, List.forall_mem_singleton.mpr (hopen w₁.history (List.mem_singleton_self _))⟩
  · cases hok

/-! ### Histories -/

theorem copyEntry_aside {root : Checkpoint} {id : ℕ} {overrides : Option EntityData} {i : Fin 3}
    (hhere : ∀ info ∈ root.manifest.files, here info) (hi : i ≠ primaryIndex)
    {entry : Result (Key × IndexValue)}
    (hok : (w.copyEntry disk storage root id overrides i entry).result = .ok w') :
    Aside disk here w w' := by
  rw [copyEntry, Guarded.result_bind] at hok
  obtain ⟨⟨key, location⟩, -, hok⟩ := bind_eq_ok.mp hok
  dsimp only at hok
  split at hok
  · split at hok
    · cases hok
      exact .refl disk here _
    · split at hok
      · rw [Guarded.result_bind] at hok
        obtain ⟨state, -, hok⟩ := bind_eq_ok.mp hok
        exact appendSnapshot_aside hok
      · rw [Guarded.result_bind] at hok
        obtain ⟨w₁, hremember, hok⟩ := bind_eq_ok.mp hok
        exact (remember_aside hhere hremember).trans (deliver_aside hi hok trivial)
  · split at hok
    · rw [Guarded.result_bind] at hok
      obtain ⟨⟨entityId, event, lsn⟩, -, hok⟩ := bind_eq_ok.mp hok
      dsimp only at hok
      split at hok
      · cases hok
      · exact appendEvent_aside hok
    · rw [Guarded.result_bind] at hok
      obtain ⟨w₁, hremember, hok⟩ := bind_eq_ok.mp hok
      exact (remember_aside hhere hremember).trans (deliver_aside hi hok trivial)

theorem copyPart_aside {root : Checkpoint} {id first last : ℕ} {overrides : Option EntityData}
    {i : Fin 3} (hhere : ∀ info ∈ root.manifest.files, here info) (hi : i ≠ primaryIndex)
    {entry : Route × Partition}
    (hok : (w.copyPart disk storage root id first last overrides i entry).result = .ok w') :
    Aside disk here w w' := by
  rw [copyPart] at hok
  split at hok
  · rw [Guarded.result_bind] at hok
    obtain ⟨w₁, hremember, hok⟩ := bind_eq_ok.mp hok
    exact (rememberAll_aside hhere hremember).trans (deliver_aside hi hok hhere)
  · rw [Guarded.result_bind] at hok
    obtain ⟨entries, -, hok⟩ := bind_eq_ok.mp hok
    rw [Guarded.result_foldlM] at hok
    exact .foldlM (fun _ _ _ _ h => copyEntry_aside hhere hi h) hok

theorem copyKind_aside {root : Checkpoint} {id base last : ℕ} {overrides : Option EntityData}
    {i : Fin 3} (hhere : ∀ info ∈ root.manifest.files, here info) (hi : i ≠ primaryIndex)
    (hok : (w.copyKind disk storage root id base last overrides i).result = .ok w') :
    Aside disk here w w' := by
  rw [copyKind] at hok
  split at hok
  · cases hok
    exact .refl disk here w
  · rw [Guarded.result_foldlM] at hok
    exact .foldlM (fun _ _ _ _ h => copyPart_aside hhere hi h) hok

/-- **A history that is taken over** goes past the primary index. -/
theorem copyHistory_aside {root : Checkpoint} {id base last : ℕ} {overrides : Option EntityData}
    (hhere : ∀ info ∈ root.manifest.files, here info)
    (hok : (w.copyHistory disk storage root id base last overrides).result = .ok w') :
    Aside disk here w w' := by
  rw [copyHistory, Guarded.result_foldlM] at hok
  refine .foldlM (fun i hi _ _ h => copyKind_aside hhere ?_ h) hok
  rcases List.mem_cons.mp hi with rfl | hi
  · exact snapshotIndex_ne
  · rw [List.mem_singleton.mp hi]
    exact historyIndex_ne

/-! ### Entities -/

/-- **An entity that is carried** brings one entry. -/
theorem carry_did {root : Checkpoint} {id : ℕ} {value : IndexValue}
    (hhere : ∀ info ∈ root.manifest.files, here info)
    (hok : (w.carry disk storage root id value).result = .ok w') :
    ∃ steps, Did disk here w w' steps 0 ∧
      delivered primaryIndex steps = [.entry (id, 0) value none] := by
  rw [carry, Guarded.result_bind] at hok
  obtain ⟨w₁, hdeliver, hok⟩ := bind_eq_ok.mp hok
  obtain ⟨more, hdid, hmore⟩ := copyHistory_aside hhere hok
  refine ⟨_, (deliver_did hdeliver trivial).trans hdid, ?_⟩
  rw [delivered_append, delivered_singleton_self, hmore]
  rfl

/-- The records of an entity that is written anew. -/
theorem appendRecords_eq_ok {id : ℕ} {data : EntityData}
    (hok : w.appendRecords disk storage id data = .ok w') :
    ∃ currentAt baseAt current bases w₁,
      w.current.store storage (w.heapFile 0) (encodeEntity data.current) =
        .ok (currentAt, current) ∧
      w.bases.store storage (w.heapFile 1) (encodeEntity data.base) = .ok (baseAt, bases) ∧
      deliver disk { w with current, bases } primaryIndex
        (.entry (id, 0) (locate w.slot currentAt, locate w.slot baseAt) none) = .ok w₁ ∧
      w' = { w₁ with entities := w₁.entities + 1 } := by
  obtain ⟨⟨currentAt, current⟩, hcurrent, hok⟩ := bind_eq_ok.mp hok
  obtain ⟨⟨baseAt, bases⟩, hbase, hok⟩ := bind_eq_ok.mp hok
  obtain ⟨w₁, hdeliver, hok⟩ := bind_eq_ok.mp hok
  cases hok
  exact ⟨currentAt, baseAt, current, bases, w₁, hcurrent, hbase, hdeliver, rfl⟩

theorem copyDisk_aside {id : ℕ} {data : EntityData}
    (hhere : ∀ disk ∈ data.disk, ∀ info ∈ disk.root.manifest.files, here info)
    (hok : (w.copyDisk disk storage id data).result = .ok w') : Aside disk here w w' := by
  rw [copyDisk] at hok
  split at hok
  · cases hok
    exact .refl disk here _
  · next source hsource =>
    split at hok
    · exact copyHistory_aside (hhere source hsource) hok
    · cases hok
      exact .refl disk here _

theorem appendMemory_aside {id : ℕ} {data : EntityData}
    (hok : w.appendMemory disk storage id data = .ok w') : Aside disk here w w' := by
  obtain ⟨w₁, hsnapshots, hevents⟩ := bind_eq_ok.mp hok
  exact Aside.trans (.foldlM (fun _ _ _ _ h => appendSnapshot_aside h) hsnapshots)
    (.foldlM (fun _ _ _ _ h => appendEvent_aside h) hevents)

/-- What an append does behind the records of the entity. -/
theorem append_behind {id : ℕ} {data : EntityData}
    (hhere : ∀ disk ∈ data.disk, ∀ info ∈ disk.root.manifest.files, here info)
    (hok : (w.append disk storage id data).result = .ok w') :
    ∃ w₁, w.appendRecords disk storage id data = .ok w₁ ∧ Aside disk here w₁ w' := by
  rw [append, Guarded.result_bind] at hok
  obtain ⟨w₁, hrecords, hok⟩ := bind_eq_ok.mp hok
  rw [Guarded.result_bind] at hok
  obtain ⟨w₂, hcopy, hok⟩ := bind_eq_ok.mp hok
  exact ⟨w₁, hrecords, (copyDisk_aside hhere hcopy).trans (appendMemory_aside hok)⟩

/-- **An entity that is written anew** brings one entry, with locators of its records in the slot
that is written. -/
theorem append_did {id : ℕ} {data : EntityData} (hstores : w.Stores)
    (hhere : ∀ disk ∈ data.disk, ∀ info ∈ disk.root.manifest.files, here info)
    (hok : (w.append disk storage id data).result = .ok w') :
    ∃ currentAt baseAt steps, Did disk here w w' steps 1 ∧ currentAt < 2 ^ 56 ∧ baseAt < 2 ^ 56 ∧
      w'.current.Has currentAt (encodeEntity data.current) ∧
      w'.bases.Has baseAt (encodeEntity data.base) ∧
      delivered primaryIndex steps =
        [.entry (id, 0) (locate w.slot currentAt, locate w.slot baseAt) none] := by
  obtain ⟨w₂, hrecords, more, hdid, hmore⟩ := append_behind hhere hok
  obtain ⟨currentAt, baseAt, current, bases, w₁, hcurrent, hbase, hdeliver, rfl⟩ :=
    appendRecords_eq_ok hrecords
  obtain ⟨written, hpaged⟩ := hstores.current
  obtain ⟨written', hpaged'⟩ := hstores.bases
  obtain ⟨hcurrent', hcurrentAt, hfresh, hbehind⟩ := store_paged hpaged hcurrent
  obtain ⟨hbases', hbaseAt, -, -⟩ := store_paged hpaged' hbase
  obtain ⟨hkeeps, hhas⟩ := store_keeps hpaged hcurrent
  obtain ⟨hkeeps', hhas'⟩ := store_keeps hpaged' hbase
  obtain ⟨indexes, -, heq⟩ := bind_eq_ok.mp hdeliver
  cases heq
  have hfirst := @deliver_did _ here _ _ _ _ hdeliver trivial
  have hrecorded : Did disk here w { w with current, bases, indexes, entities := w.entities + 1 }
      [(primaryIndex, .entry (id, 0) (locate w.slot currentAt, locate w.slot baseAt) none)] 1 :=
    ⟨hfirst.indexes, rfl, rfl, rfl, rfl, rfl, rfl, hfirst.segments,
      fun _ => ⟨hcurrent', hbases', (hstores.entities.trans hfresh).trans_lt hbehind⟩, hkeeps,
      hkeeps', hfirst.reused, hfirst.sources⟩
  refine ⟨currentAt, baseAt, _, hrecorded.trans hdid, hcurrentAt, hbaseAt,
    hhas.mono hdid.current, hhas'.mono hdid.bases, ?_⟩
  rw [delivered_append, delivered_singleton_self, hmore]
  rfl

/-! ### Beginning and finishing -/

/-- **A table writer that has just been created**: nothing is delivered, and its files are new. -/
structure Created (disk : Disk) (options : TableOptions) (table limit : ℕ) (w : FullTableWriter) :
    Prop where
  indexes : w.indexes = .new table options.generation options.lsn limit
  table_eq : w.table = table
  generation_eq : w.generation = options.generation
  slot_eq : w.slot = options.slot
  entities_eq : w.entities = 0
  segmented : w.toTableWriter.Segmented disk
  heaps : ∀ kind ∈ [0, 1, 2], disk ⟨table, options.generation, kind, 0⟩ = none
  stores : w.Stores
  current_eq : w.current = .create (UInt64.ofNat options.lsn)
  bases_eq : w.bases = .create (UInt64.ofNat options.lsn)
  reused : w.reused = ∅
  historyGenerations :
    w.historyGenerations = (∅ : BTreeMap ℕ).insert options.generation options.lsn

theorem create_eq_ok {options : TableOptions} {table limit : ℕ} {rewriteIndexes : Bool}
    (hok : create disk options table limit rewriteIndexes = .ok w) :
    w.Created disk options table limit := by
  obtain ⟨⟨⟩, hnew, hok⟩ := bind_eq_ok.mp hok
  obtain ⟨w₀, hcreate, hok⟩ := bind_eq_ok.mp hok
  cases hok
  rw [TableWriter.create] at hcreate
  split at hcreate
  · cases hcreate
  · next hhistory =>
    cases hcreate
    have hheaps : ∀ kind ∈ [0, 1, 2], disk ⟨table, options.generation, kind, 0⟩ = none := by
      intro kind hkind
      have hkind' := forM_eq_ok hnew kind hkind
      rw [Disk.createNew] at hkind'
      split at hkind'
      · cases hkind'
      · next hnone => exact Option.not_isSome_iff_eq_none.mp hnone
    have hlast : disk ⟨table, options.generation, 6, 0⟩ = none :=
      Option.not_isSome_iff_eq_none.mp hhistory
    exact ⟨rfl, rfl, rfl, rfl, rfl,
      ⟨rfl, List.forall_mem_singleton.mpr hlast, Nat.zero_le _⟩, hheaps,
      ⟨⟨[], HeapWriter.paged_create _⟩, ⟨[], HeapWriter.paged_create _⟩, Nat.zero_le _⟩, rfl, rfl,
      rfl, rfl⟩

/-- **What a table comes to** when it is finished. -/
theorem finish_eq_ok {output : TableOutput} (hok : w.finish storage = .ok output) :
    ∃ indexFiles partitions built, w.indexes.finish = .ok (indexFiles, partitions, built) ∧
      (∀ file ∈ built ++ w.heaps ++ w.segments, file.2.length < 2 ^ 53) ∧
      output = {
        files := w.reused.toList.map Prod.snd ++ indexFiles ++ (w.heaps ++ w.segments).map fileInfo
        entities := w.entities
        historyGenerations := w.historyGenerations
        partitions
        written := built ++ w.heaps ++ w.segments } := by
  obtain ⟨⟨indexFiles, partitions, built⟩, hindexes, hok⟩ := bind_eq_ok.mp hok
  obtain ⟨⟨⟩, hwritten, hok⟩ := bind_eq_ok.mp hok
  cases hok
  exact ⟨indexFiles, partitions, built, hindexes,
    fun file hfile => Storage.length_lt (forM_eq_ok hwritten file hfile), rfl⟩

end FullTableWriter

end EveDB
