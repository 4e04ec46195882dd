import EveDB.Store.Fitting
import EveDB.Store.GroupCommit
import EveDB.Storage.HeapReads

/-!
# Reading back what was admitted

What fits stays so when a batch is bound, stamped and published, and under maintenance. So in a
database that begins with everything fitting, and whose writes leave room for the fields their
rows lack, everything fits all along (`LifeUnder.fits`), and no read is refused for the size of a
record (`admitted_writes_readable`).

Without that room a write is admitted by the size of its row before the row is completed, and the
state it makes cannot be read back (`exists_unreadable_write`).
-/

namespace EveDB

open Std

namespace Store

open Fallible

/-- The pages of a heap file hold no record that is too long. -/
theorem Files.Bounded.withHeap {files : Files} (h : files.Bounded) (fileId : FileId)
    (file : Bytes) : (files.withHeap fileId file).Bounded := by
  intro other id page hpage record hrecord
  change Function.update files.page fileId (heapPage file) other id = .ok page at hpage
  by_cases heq : other = fileId
  · rw [heq, Function.update_self] at hpage
    obtain ⟨bytes, -, hpage⟩ := bind_eq_ok.mp hpage
    split at hpage
    · cases hpage
    · next slotted hslotted =>
      split at hpage
      · cases hpage
      · cases hpage
        obtain ⟨slot, -, hget⟩ := List.mem_map.mp hrecord
        unfold SlottedPage.get at hget
        split at hget
        · cases hget
        · dsimp only at hget
          split at hget
          · cases hget
          · cases hget
            have hmax : maxRecord = 16777216 := rfl
            have hpage : pageSize = 8192 := rfl
            rw [SlottedPage.slice, Buffer.length_slice, slotted.size]
            omega
  · rw [Function.update_of_ne heq] at hpage
    exact h other id page hpage record hrecord

/-! ### What is published -/

section Publish

variable {limit : ℕ}

/-- Events that are shared are those of the transaction, and those that have been shared. -/
theorem EntityData.Fits.sealEvents {data : EntityData} (h : data.Fits limit) :
    data.sealEvents.Fits limit := by
  refine ⟨h.current, List.forall_mem_nil _, fun version event hevent => ?_⟩
  rcases SortedMap.of_getElem?_insertMany hevent with hmem | hcommitted
  · obtain ⟨own, hown, heq⟩ := List.mem_map.mp hmem
    cases heq
    exact h.events event hown
  · exact h.committed version event hcommitted

theorem EntityData.Fits.kept {data data' : EntityData} (h : data.Fits limit)
    (hkept : data.Kept data') : data'.Fits limit := by
  refine ⟨?_, ?_, fun version event hevent => ?_⟩
  · rw [hkept.current]
    exact h.current
  · rw [hkept.events]
    exact h.events
  · exact h.committed version event (hkept.committed version event hevent)

theorem EntityData.Fits.stamped {data : EntityData} (h : data.Fits limit) (base n : ℕ) :
    (data.stamped base n).Fits limit := by
  refine ⟨h.current, List.forall_mem_map.mpr fun event hevent => ?_, h.committed⟩
  have hle := h.events event hevent
  split
  · exact hle
  · exact hle

/-- Everything a batch has staged fits. -/
def Prepared.Fits (limit : ℕ) (b : Prepared) : Prop := Each (EntityData.Fits limit) b.staged

theorem Prepared.Fits.restamp {b : Prepared} (h : b.Fits limit) (n : ℕ) :
    (b.restamp n).Fits limit := by
  intro key data hdata
  change (b.staged.map fun _ data => data.stamped b.baseSequence n)[key]? = some data at hdata
  rw [ExtTreeMap.getElem?_map] at hdata
  obtain ⟨data', hdata', rfl⟩ := Option.map_eq_some_iff.mp hdata
  exact (h key data' hdata').stamped _ _

theorem Prepared.Rebound.fits {env : Env} {root : Checkpoint} {b b' : Prepared}
    (h : b.Rebound env root b') (hb : b.Fits limit) : b'.Fits limit := by
  intro key data' hdata'
  have hrel := h.sameEntities key
  rw [hdata'] at hrel
  generalize hdata : b.staged[key]? = found at hrel
  cases hrel with
  | some hkept => exact (hb key _ hdata).kept hkept

/-- **What is laid over entities that fit fits**, when what is staged does. -/
theorem each_fits_sealOver {staged overlay : SortedMap (ℕ × ℕ) EntityData}
    (h : Each (EntityData.Fits limit) overlay) (hstaged : Each (EntityData.Fits limit) staged) :
    Each (EntityData.Fits limit) (Prepared.sealOver staged overlay) := by
  intro key data hdata
  rw [getElem?_sealOver] at hdata
  cases hfound : staged[key]? with
  | none =>
    rw [hfound] at hdata
    exact h key data hdata
  | some data' =>
    rw [hfound] at hdata
    cases hdata
    exact (hstaged key data' hfound).sealEvents

/-- **A database in which everything fits.** -/
structure Database.Fits (limit : ℕ) (db : Database) : Prop where
  state : db.state.Fits limit
  tail : ∀ tail, db.checkpointTail = some tail → Each (EntityData.Fits limit) tail
  published : db.published.Fits limit

/-- Publishing a batch keeps it so. -/
theorem Database.Fits.publishState {db : Database} (h : db.Fits limit) {b : Prepared}
    (hb : b.Fits limit) (n : ℕ) : (b.publishState n db).Fits limit where
  state := ⟨h.state.files, each_fits_sealOver h.state.overlay hb⟩
  tail tail htail := by
    obtain ⟨tail₀, htail₀, rfl⟩ := Option.map_eq_some_iff.mp htail
    exact each_fits_sealOver (h.tail tail₀ htail₀) hb
  published := h.published

/-- A step of the maintenance, with what a checkpoint may have on its pages. -/
def MaintainsBounded (db db' : Database) : Prop :=
  Maintains db db' ∧ db'.state.root.files.Bounded

/-- So does the maintenance. -/
theorem Database.Fits.maintain {db db' : Database} (h : db.Fits limit)
    (hstep : MaintainsBounded db db') : db'.Fits limit := by
  obtain ⟨hstep, hfiles⟩ := hstep
  cases hstep with
  | capture =>
    refine ⟨h.state, ?_, h.published⟩
    rintro tail ⟨⟩
    exact each_empty
  | install hopen htail =>
    have hview : ReadState.Fits limit _ := ⟨hfiles, h.tail _ htail⟩
    refine ⟨hview, ?_, hview⟩
    rintro tail ⟨⟩
  | abandon =>
    refine ⟨h.state, ?_, h.published⟩
    rintro tail ⟨⟩
  | fail => exact ⟨h.state, h.tail, h.published⟩

/-- And so does a group commit. -/
theorem Database.Fits.commit {env : Env} {checkpoint : Database → Result Unit × Database}
    {write : WalWrite} {tick : ℕ} {batches : List Prepared} {answers : List (Option (Result ℕ))}
    {db db' : Database}
    (hcheckpoint : ∀ db, Relation.ReflTransGen MaintainsBounded db (checkpoint db).2)
    (hcommit : commitGroup env checkpoint write tick batches db = (answers, db'))
    (hbatches : ∀ b ∈ batches, b.Fits limit) (h : db.Fits limit) : db'.Fits limit := by
  refine commitGroup_keeps (I := Database.Fits limit) (B := Prepared.Fits limit) (fun d hd => ?_)
    (fun _ _ _ hbound hb => hbound.fits hb) (fun b n hb => hb.restamp n)
    (fun d wal walBytes poisoned hd => ⟨hd.state, hd.tail, hd.published⟩)
    (fun b n d hb _ hd => hd.publishState hb n)
    (fun d hd => ⟨hd.state, hd.tail, hd.state⟩) hcommit hbatches h
  have hsteps := hcheckpoint d
  generalize (checkpoint d).2 = d' at hsteps
  induction hsteps with
  | refl => exact hd
  | tail _ hstep ih => exact ih.maintain hstep

end Publish

/-! ### Runs -/

/-- **A transaction under a limit**, behind some calls that all had room. -/
def Transaction.Under (limit : ℕ) (env : Env) (view : ReadState) (t' : Transaction) : Prop :=
  env.Limited limit ∧ ∃ (options : Options) (requested : TransactionOptions) (tick : ℕ)
    (calls : List Call) (results : List (Result Unit)) (t : Transaction),
    options.limits.maxDecodedRecordBytes = limit ∧
      Transaction.new env view options false requested tick = .ok t ∧
      Call.HaveRoom env limit calls t ∧ Call.performAll env calls t = (results, t')

/-- **What a transaction under a limit has staged fits.** -/
theorem Transaction.Under.fits {limit : ℕ} {env : Env} {view : ReadState} {t : Transaction}
    (h : t.Under limit env view) (hview : view.Fits limit) :
    ∀ s, t.value = some s → s.Fits limit := by
  obtain ⟨henv, options, requested, tick, calls, results, t₀, hlimit, hnew, hroom, hcalls⟩ := h
  refine Call.performAll_fits henv (fun s hs => ?_) hroom hcalls
  obtain ⟨s₀, hs₀, hvalue⟩ := Transaction.new_value hnew
  rw [hvalue] at hs
  cases hs
  obtain ⟨_, -, hs₀⟩ := bind_eq_ok.mp hs₀
  cases hs₀
  exact ⟨hview, rfl, hlimit, each_empty⟩

/-- **The life of a database under a limit**: the views it has published, and where it has got to.
It begins with everything in it fitting, and all calls of its transactions have room. -/
inductive LifeUnder (limit : ℕ) : List ReadState → Database → Prop
  | begun {db : Database} (h : db.Fits limit) : LifeUnder limit [db.published] db
  | share {views : List ReadState} {db : Database} (h : LifeUnder limit views db) :
      LifeUnder limit views { db with sharedMode := true }
  | maintain {views : List ReadState} {db db' : Database} (h : LifeUnder limit views db)
      (hstep : MaintainsBounded db db') : LifeUnder limit (db'.published :: views) db'
  | commit {views : List ReadState} {db db' : Database} {env : Env}
      {checkpoint : Database → Result Unit × Database} {write : WalWrite} {tick : ℕ}
      {batches : List Prepared} {answers : List (Option (Result ℕ))}
      (h : LifeUnder limit views db)
      (hbatches : ∀ batch ∈ batches, ∃ view ∈ views, ∃ (env : Env) (t : Transaction) (s : Staging)
        (deadline : ℕ), t.Under limit env view ∧ t.take env = .ok s ∧
          batch = s.prepare (some deadline))
      (hcheckpoint : ∀ db, Relation.ReflTransGen MaintainsBounded db (checkpoint db).2)
      (hcommit : commitGroup env checkpoint write tick batches db = (answers, db')) :
      LifeUnder limit (db'.published :: views) db'

/-- **All along everything fits.** -/
theorem LifeUnder.fits {limit : ℕ} {views : List ReadState} {db : Database}
    (h : LifeUnder limit views db) : db.Fits limit ∧ ∀ view ∈ views, view.Fits limit := by
  induction h with
  | begun h => exact ⟨h, List.forall_mem_singleton.mpr h.published⟩
  | share h ih =>
    obtain ⟨hdb, hviews⟩ := ih
    exact ⟨⟨hdb.state, hdb.tail, hdb.published⟩, hviews⟩
  | maintain h hstep ih =>
    have hdb := ih.1.maintain hstep
    exact ⟨hdb, List.forall_mem_cons.mpr ⟨hdb.published, ih.2⟩⟩
  | commit h hbatches hcheckpoint hcommit ih =>
    have hfits : ∀ b ∈ _, Prepared.Fits _ b := fun b hb => by
      obtain ⟨view, hview, env, t, s, deadline, hunder, htake, rfl⟩ := hbatches b hb
      obtain ⟨s₀, hvalue, rfl⟩ := Transaction.take_value htake
      exact (hunder.fits (ih.2 view hview) s₀ hvalue).staged
    have hdb := ih.1.commit hcheckpoint hcommit hfits
    exact ⟨hdb, List.forall_mem_cons.mpr ⟨hdb.published, ih.2⟩⟩

/-- A read of an entity in memory asks for what its current state takes. -/
theorem ReadState.requests_get {view : ReadState} {table id : ℕ} {t : Table} {data : EntityData}
    (htable : view.catalog.table table = .ok t) (hdata : view.overlay[(table, id)]? = some data) :
    (view.get table id).requests = [.decoded (entityBytes data.current)] := by
  unfold ReadState.get
  rw [htable, hdata]
  rfl

/-- What keeps to the limit on decoded records is not refused for its size. -/
theorem Env.decoded_of_le {env : Env} {bytes : ℕ}
    (hle : bytes ≤ env.limits.maxDecodedRecordBytes) (hmax : bytes ≤ maxU64) (tick : ℕ) :
    env.decoded tick bytes = env.memory tick bytes := by
  rw [Env.decoded]
  split
  · rfl
  · rw [check_eq_ok.mpr ⟨by omega, by omega⟩]
    rfl

/-- **Anything an admitted write accepts can be read back**, in a database that begins with
everything fitting the limit on decoded records and in which every call that changes or deletes an
entity has room for the fields its row lacks. Everything in a view that has been published fits,
and so does everything a transaction has staged behind any of its calls: the current states of the
entities, the limit on stored records included, and the events that lead to them. A read of an
entity in memory asks for no more than the limit, and neither does one of a record that holds such
a state or event; and up to the limit, nothing is refused for its size. -/
theorem admitted_writes_readable {limit : ℕ} (hlimit : limit ≤ maxU64) {views : List ReadState}
    {db : Database} (h : LifeUnder limit views db) :
    (∀ view ∈ views, ∀ (key : ℕ × ℕ) (data : EntityData), view.overlay[key]? = some data →
      data.Fits limit) ∧
    (∀ view ∈ views, ∀ (env : Env) (t : Transaction) (s : Staging), t.Under limit env view →
      t.value = some s → ∀ (key : ℕ × ℕ) (data : EntityData), s.staged[key]? = some data →
        data.Fits limit) ∧
    (∀ view ∈ views, ∀ table id, (table, id) ∈ view.overlay →
      ∀ request ∈ (view.get table id).requests, request.Within limit) ∧
    (∀ raw : Bytes, raw.length ≤ maxRecord →
      (∀ e : Entity, e.Fits limit → decodeEntity raw = .ok e →
        ∃ bytes ≤ limit, recordBytes raw entitySize = .ok bytes) ∧
      ∀ event : Event, eventBytes event ≤ limit → decodeEvent raw = .ok event →
        ∃ bytes ≤ limit, recordBytes raw eventSize = .ok bytes) ∧
    ∀ env : Env, env.limits.maxDecodedRecordBytes = limit → ∀ bytes ≤ limit, ∀ tick,
      env.decoded tick bytes = env.memory tick bytes := by
  obtain ⟨-, hviews⟩ := h.fits
  have hshort : maxRecord < 2 ^ 63 := by decide
  refine ⟨?_, ?_, ?_, ?_, ?_⟩
  · exact fun view hview => (hviews view hview).overlay
  · intro view hview env t s hunder hvalue
    exact (hunder.fits (hviews view hview) s hvalue).staged
  · intro view hview table id hmem request hrequest
    obtain ⟨data, hdata⟩ := Option.isSome_iff_exists.mp
      (ExtTreeMap.isSome_getElem?_iff_mem.mpr hmem)
    cases htable : view.catalog.table table with
    | error e =>
      unfold ReadState.get at hrequest
      rw [htable] at hrequest
      cases hrequest
    | ok t =>
      rw [ReadState.requests_get htable hdata] at hrequest
      obtain rfl := List.mem_singleton.mp hrequest
      exact ((hviews view hview).overlay _ data hdata).current.decoded
  · refine fun raw hraw => ⟨fun e he hdecode => ?_, fun event hevent hdecode => ?_⟩
    · exact ⟨_, he.decoded, scan_of_decodeEntity (hraw.trans_lt hshort) hdecode⟩
    · exact ⟨_, hevent, scan_of_decodeEvent (hraw.trans_lt hshort) hdecode⟩
  · rintro env rfl bytes hle tick
    exact Env.decoded_of_le hle (hle.trans hlimit) tick

/-- Limits that admit a row of one field, and no row of two. -/
def tightLimits : Limits := { Limits.default with maxDecodedRecordBytes := 250 }

/-- The options with these limits. -/
def tightOptions : Options := { Options.default with limits := tightLimits }

/-- The view of a database in which a table has been created. -/
def itemsView : ReadState :=
  { emptyView Files.empty with catalog := (∅ : Catalog).insert 1 Catalog.oneTable, lsn := 1 }

/-- The database with this view. -/
def itemsDatabase : Database :=
  { Database.over itemsView with sharedMode := true, options := tightOptions }

/-- A transaction on it. -/
def itemsTransaction : Transaction :=
  { oneTableTransaction with
    value := some
      { emptyStaging Files.empty 3 with
        base := itemsView, options := tightOptions, catalog := itemsView.catalog } }

/-- An entity is created, and changed. -/
def twoWrites : List Call :=
  [.create 1 7 (ExtTreeMap.ofList [(1, .text "a")] compare),
   .apply 1 7 (ExtTreeMap.ofList [(1, .text "b")] compare)]

/-- In between, its table gets a second field. -/
def widening : List Call :=
  [.create 1 7 (ExtTreeMap.ofList [(1, .text "a")] compare),
   .alterTable 1 [⟨1, "name", .text, false⟩, ⟨2, "note", .text, true⟩],
   .apply 1 7 (ExtTreeMap.ofList [(1, .text "b")] compare)]

/-- Nothing in the database is too large to begin with. -/
theorem fits_itemsDatabase : itemsDatabase.Fits 250 := by
  have hview : itemsView.Fits 250 := by
    refine ⟨?_, each_empty⟩
    rintro file id page ⟨⟩
  refine ⟨hview, ?_, hview⟩
  rintro tail ⟨⟩

/-- A row whose changes name all fields leaves room, whatever it was. -/
theorem haveRoom_twoWrites :
    Call.HaveRoom (Env.quiet tightLimits false) 250 twoWrites itemsTransaction := by
  have hcatalog : ((((Call.create 1 7 (ExtTreeMap.ofList [(1, .text "a")] compare)).perform
      (Env.quiet tightLimits false)).run itemsTransaction).2.value.map fun s => s.catalog.toList) =
        some [(1, Catalog.oneTable)] := by decide +kernel
  refine ⟨fun s _ => trivial, fun s hs => ?_, trivial⟩
  rw [hs] at hcatalog
  have hcatalog : s.catalog.toList = [(1, Catalog.oneTable)] := Option.some.inj hcatalog
  intro table newest schema data htable hnewest hschema _
  have hmem : (1, table) ∈ s.catalog.toList := by
    refine ExtTreeMap.mem_toList_iff_getElem?_eq_some.mpr ?_
    change s.catalog.table 1 = .ok table at htable
    unfold Catalog.table at htable
    split at htable
    · next found hfound =>
      cases htable
      exact hfound
    · cases htable
  rw [hcatalog] at hmem
  cases List.mem_singleton.mp hmem
  cases hnewest
  cases hschema
  refine Or.inl (List.length_eq_zero_iff.mpr (List.filter_eq_nil_iff.mpr fun field hfield => ?_))
  obtain rfl := List.mem_singleton.mp hfield
  have hchanges : (ExtTreeMap.ofList [(1, Value.text "b")] compare).toList = [(1, .text "b")] := rfl
  rw [hchanges, ExtTreeMap.insertMany_cons, ExtTreeMap.insertMany_nil]
  simp

/-- An entity that is created and changed can be read back. -/
theorem admitted_writes_readable_two : ∃ (t : Transaction) (s : Staging) (data : EntityData),
    t.Under 250 (Env.quiet tightLimits false) itemsView ∧ t.value = some s ∧
      s.staged[((1, 7) : ℕ × ℕ)]? = some data ∧ data.Fits 250 := by
  rcases hcalls : Call.performAll (Env.quiet tightLimits false) twoWrites itemsTransaction with
    ⟨results, t⟩
  have hfound : ((Call.performAll (Env.quiet tightLimits false) twoWrites
      itemsTransaction).2.value.bind fun s => s.staged[((1, 7) : ℕ × ℕ)]?).isSome = true := by
    decide +kernel
  rw [hcalls] at hfound
  obtain ⟨data, hdata⟩ := Option.isSome_iff_exists.mp hfound
  obtain ⟨s, hs, hdata⟩ := Option.bind_eq_some_iff.mp hdata
  have hunder : t.Under 250 (Env.quiet tightLimits false) itemsView :=
    ⟨⟨rfl, rfl⟩, tightOptions, ⟨none, none⟩, 0, twoWrites, results, itemsTransaction, rfl, rfl,
      haveRoom_twoWrites, hcalls⟩
  have hstaged := (admitted_writes_readable (by decide) (.begun fits_itemsDatabase)).2.1
  exact ⟨t, s, data, hunder, hs, hdata,
    hstaged itemsView (List.mem_singleton_self _) _ t s hunder hs (1, 7) data hdata⟩

/-- What committing the other writes comes to. -/
def widened : Option (Option (Result ℕ) × Database) :=
  ((Call.performAll (Env.quiet tightLimits false) widening itemsTransaction).2.take
    (Env.quiet tightLimits false)).toOption.map fun s =>
      (s.prepare (some 5)).commit (Env.quiet tightLimits false) (fun db => (.ok (), db)) .done 0
        itemsDatabase

/-- **A write that is admitted and cannot be read back.** The row has one field; behind its change
it is completed with a null for the second one, and what is published takes more than the limit. -/
theorem exists_unreadable_write :
    tightOptions.validate 0 = .ok () ∧
    Transaction.new (Env.quiet tightLimits false) itemsView tightOptions false ⟨none, none⟩ 0 =
      .ok itemsTransaction ∧
    ∃ (t : Transaction) (s : Staging) (db : Database) (data : EntityData),
      Call.performAll (Env.quiet tightLimits false) widening itemsTransaction =
        ([.ok (), .ok (), .ok ()], t) ∧
      t.take (Env.quiet tightLimits false) = .ok s ∧
      (s.prepare (some 5)).commit (Env.quiet tightLimits false) (fun db => (.ok (), db)) .done 0
        itemsDatabase = (some (.ok 2), db) ∧
      db.published.overlay[((1, 7) : ℕ × ℕ)]? = some data ∧
      (db.published.get 1 7).requests = [.decoded (entityBytes data.current)] ∧
      ∀ tick, (Env.quiet tightLimits false).decoded tick (entityBytes data.current) =
        .error (.limitExceeded "decoded record bytes" 250) := by
  have hresults : (Call.performAll (Env.quiet tightLimits false) widening itemsTransaction).1 =
      [.ok (), .ok (), .ok ()] := by decide +kernel
  have hanswer : widened.map Prod.fst = some (some (.ok 2)) := by decide +kernel
  have htable : (widened.map fun o => (o.2.published.catalog.table 1).toBool) = some true := by
    decide +kernel
  have hsize : (widened.bind fun o => o.2.published.overlay[((1, 7) : ℕ × ℕ)]?.map fun data =>
      entityBytes data.current) = some 313 := by decide +kernel
  unfold widened at hanswer htable hsize
  rcases hcalls : Call.performAll (Env.quiet tightLimits false) widening itemsTransaction with
    ⟨results, t⟩
  rw [hcalls] at hresults hanswer htable hsize
  obtain rfl : results = _ := hresults
  rcases htake : t.take (Env.quiet tightLimits false) with e | s
  · rw [htake] at hanswer
    cases hanswer
  · rw [htake] at hanswer htable hsize
    rcases hcommit : (s.prepare (some 5)).commit (Env.quiet tightLimits false)
      (fun db => (.ok (), db)) .done 0 itemsDatabase with ⟨answer, db⟩
    simp only [Except.toOption, Option.map_some, Option.bind_some, hcommit, Option.some.injEq]
      at hanswer htable hsize
    obtain rfl := hanswer
    obtain ⟨data, hdata, hsize⟩ := Option.map_eq_some_iff.mp hsize
    refine ⟨by decide, rfl, t, s, db, data, rfl, htake, hcommit, hdata, ?_, fun tick => ?_⟩
    · cases htable' : db.published.catalog.table 1 with
      | error e =>
        rw [htable'] at htable
        cases htable
      | ok table => exact ReadState.requests_get htable' hdata
    · rw [hsize]
      rfl

end Store

end EveDB
