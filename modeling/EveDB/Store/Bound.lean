import EveDB.Store.Catalogs

/-!
# What entities in memory are bound to

An entity that was loaded from a checkpoint goes on naming it as the source of its history, and the
checkpoint has the entity (`Bound`). Operations keep the source; binding a batch to a root exchanges
it (`EntityData.rebind_bound`): since no root loses an entity that an earlier one had, a batch is
bound to the current root throughout, however old its view is.

This is an instance of what holds of entities under their keys and goes through a group commit
(`Every`, `Ready.every_state`).
-/

namespace EveDB.Store

open Std Fallible

/-! ### Entities under their keys -/

/-- All entities are so under their keys. -/
def Every (P : ℕ × ℕ → EntityData → Prop) (entities : SortedMap (ℕ × ℕ) EntityData) : Prop :=
  ∀ (key : ℕ × ℕ) (data : EntityData), entities[key]? = some data → P key data

section Every

variable {P Q : ℕ × ℕ → EntityData → Prop} {entities staged : SortedMap (ℕ × ℕ) EntityData}

theorem every_empty : Every P ∅ := by
  intro key data h
  rw [ExtTreeMap.getElem?_empty] at h
  cases h

theorem Every.mono (h : Every P entities) (hPQ : ∀ key data, P key data → Q key data) :
    Every Q entities :=
  fun key data hdata => hPQ key data (h key data hdata)

theorem Every.insert (h : Every P entities) {key : ℕ × ℕ} {data : EntityData} (hdata : P key data) :
    Every P (entities.insert key data) := by
  intro key' data' hdata'
  rw [ExtTreeMap.getElem?_insert] at hdata'
  split at hdata'
  · next heq =>
    obtain rfl := LawfulEqOrd.eq_of_compare heq
    cases hdata'
    exact hdata
  · exact h key' data' hdata'

/-- What is laid over a view keeps it so. -/
theorem Every.sealOver (h : Every P entities) (hstaged : Every Q staged)
    (hseal : ∀ key data, Q key data → P key data.sealEvents) :
    Every P (Prepared.sealOver staged entities) := by
  intro key data hdata
  rw [getElem?_sealOver] at hdata
  cases hfound : staged[key]? with
  | none =>
    rw [hfound] at hdata
    exact h key data hdata
  | some data' =>
    rw [hfound] at hdata
    cases hdata
    exact hseal key data' (hstaged key data' hfound)

end Every

/-- **What holds of all entities of the base view under their keys, and is kept by every
operation**, holds of all entities that are staged. -/
theorem Staging.Invariant.of_every {base : ReadState} {P : ℕ × ℕ → EntityData → Prop} (env : Env)
    (hload : ∀ charged table id data,
      (base.loadCharged charged table id).result = .ok (some data) → P (table, id) data)
    (hedit : ∀ (s : Staging) staged table operation key data, s.base = base → Every P staged →
      operation.entityKey = some key → s.Edits staged table operation data → P key data) :
    Staging.Invariant env fun s => s.base = base ∧ Every P s.staged where
  same s s' hsame := by
    rintro ⟨hbase, hstaged⟩
    rw [hsame.base, hsame.staged]
    exact ⟨hbase, hstaged⟩
  run operation s := by
    rintro ⟨hbase, hstaged⟩
    have hloads {key : ℕ × ℕ} {staged : SortedMap (ℕ × ℕ) EntityData}
        (hloads : s.Loads key staged) : Every P staged := by
      cases hloads with
      | kept => exact hstaged
      | loaded hnew hdata =>
        rw [hbase] at hdata
        exact hstaged.insert (hload _ _ _ _ hdata)
    rcases hrun : (Staging.run env operation).run s with ⟨r, s'⟩
    obtain ⟨⟨hbase', -, -⟩, hcases⟩ := Staging.run_stages hrun
    refine ⟨hbase'.trans hbase, ?_⟩
    dsimp only
    rcases hcases with ⟨-, hstages⟩ | ⟨-, -, hsame | ⟨key, -, hload⟩⟩
    · generalize s'.catalog = catalog, s'.staged = staged at hstages
      cases hstages with
      | change => exact hstaged
      | edit hkey htable hload hedits =>
        exact (hloads hload).insert (hedit s _ _ _ _ _ hbase (hloads hload) hkey hedits)
    · rw [hsame]
      exact hstaged
    · exact hloads hload

/-- What every operation keeps, it keeps together. -/
theorem Staging.Invariant.and {env : Env} {I J : Staging → Prop} (h : Staging.Invariant env I)
    (h' : Staging.Invariant env J) : Staging.Invariant env fun s => I s ∧ J s where
  same s s' hsame hs := ⟨h.same s s' hsame hs.1, h'.same s s' hsame hs.2⟩
  run operation s hs := ⟨h.run operation s hs.1, h'.run operation s hs.2⟩

/-! ### Groups -/

/-- What binding entities to a root makes of them. -/
theorem rebindAll_getElem? {root : Checkpoint} {generation : ℕ} {l : List ((ℕ × ℕ) × EntityData)}
    {cur staged : SortedMap (ℕ × ℕ) EntityData}
    (h : (rebindAll root generation l cur).result = .ok staged) {key : ℕ × ℕ} {data' : EntityData}
    (hdata' : staged[key]? = some data') :
    (∃ data, (key, data) ∈ l ∧ (data.rebind root generation key).result = .ok data') ∨
      cur[key]? = some data' ∧ key ∉ l.map Prod.fst := by
  induction l generalizing cur with
  | nil =>
    cases h
    exact Or.inr ⟨hdata', List.not_mem_nil⟩
  | cons p l ih =>
    obtain ⟨key₁, data₁⟩ := p
    rw [rebindAll, Guarded.result_bind] at h
    obtain ⟨data₁', hbound, h⟩ := bind_eq_ok.mp h
    rcases ih h with ⟨data, hmem, hrebind⟩ | ⟨hcur, hnot⟩
    · exact Or.inl ⟨data, List.mem_cons_of_mem _ hmem, hrebind⟩
    · rw [ExtTreeMap.getElem?_insert] at hcur
      split at hcur
      · next heq =>
        obtain rfl := LawfulEqOrd.eq_of_compare heq
        cases hcur
        exact Or.inl ⟨data₁, List.mem_cons_self, hbound⟩
      · next hne =>
        refine Or.inr ⟨hcur, fun hmem => ?_⟩
        rcases List.mem_cons.mp hmem with rfl | hmem
        · exact hne ReflOrd.compare_self
        · exact hnot hmem

/-- **What binding a batch makes of its entities.** -/
theorem Prepared.Rebound.getElem?_staged {env : Env} {root : Checkpoint} {b b' : Prepared}
    (h : b.Rebound env root b') {key : ℕ × ℕ} {data' : EntityData}
    (hdata' : b'.staged[key]? = some data') :
    ∃ data, b.staged[key]? = some data ∧
      (data.rebind root b.rootGeneration key).result = .ok data' := by
  rcases rebindAll_getElem? h.spec.1 hdata' with ⟨data, hmem, hrebind⟩ | ⟨hstaged, hnot⟩
  · exact ⟨data, ExtTreeMap.mem_toList_iff_getElem?_eq_some.mp hmem, hrebind⟩
  · refine absurd (List.mem_map.mpr ⟨(key, data'), ?_, rfl⟩) hnot
    exact ExtTreeMap.mem_toList_iff_getElem?_eq_some.mpr hstaged

section Ready

variable {P Q : ℕ × ℕ → EntityData → Prop} {env : Env} {root : Checkpoint} {tick lsn : ℕ}
  {ps : List (Prepared × ℕ)} {qs : List (Prepared × Bytes)} {db : Database}
  (hrebind : ∀ key data data' generation, Q key data →
    (data.rebind root generation key).result = .ok data' → P key data')
  (hseal : ∀ key data base n, P key data → P key (data.stamped base n).sealEvents)

include hrebind hseal

/-- A batch that is bound to a manifest is laid over entities. -/
theorem Prepared.Rebound.every_sealOver {b b' : Prepared} (h : b.Rebound env root b')
    (hstaged : Every Q b.staged) (n : ℕ) {entities : SortedMap (ℕ × ℕ) EntityData}
    (hentities : Every P entities) :
    Every P (Prepared.sealOver (b'.restamp n).staged entities) := by
  refine hentities.sealOver
    (Q := fun key data => P key data.sealEvents) (fun key data hdata => ?_) fun _ _ h => h
  change (b'.staged.map fun _ data => data.stamped b'.baseSequence n)[key]? = some data at hdata
  rw [ExtTreeMap.getElem?_map] at hdata
  obtain ⟨data', hdata', rfl⟩ := Option.map_eq_some_iff.mp hdata
  obtain ⟨data₀, hdata₀, hbound⟩ := h.getElem?_staged hdata'
  exact hseal _ _ _ _ (hrebind key data₀ data' _ (hstaged key data₀ hdata₀) hbound)

/-- **What holds of entities goes through a group commit**, from what is staged to what is
published. -/
theorem Ready.every_state (h : Ready env root tick lsn ps qs)
    (hstaged : ∀ p ∈ ps, Every Q p.1.staged)
    (hstate : Every P db.state.overlay) :
    Every P (publishEach (qs.map Prod.fst) db).state.overlay := by
  induction h generalizing db with
  | nil => exact hstate
  | cons hne hbase hawake hmax hframe hrebound rest ih =>
    obtain ⟨hhead, hstaged⟩ := List.forall_mem_cons.mp hstaged
    exact ih hstaged (hrebound.every_sealOver hrebind hseal hhead _ hstate)

/-- So it does on the way to what is kept for a checkpoint that is under way. -/
theorem Ready.every_tail (h : Ready env root tick lsn ps qs)
    (hstaged : ∀ p ∈ ps, Every Q p.1.staged)
    (htail : ∀ tail ∈ db.checkpointTail, Every P tail) :
    ∀ tail ∈ (publishEach (qs.map Prod.fst) db).checkpointTail, Every P tail := by
  induction h generalizing db with
  | nil => exact htail
  | cons hne hbase hawake hmax hframe hrebound rest ih =>
    obtain ⟨hhead, hstaged⟩ := List.forall_mem_cons.mp hstaged
    refine ih hstaged fun tail hsealed => ?_
    obtain ⟨tail', htail', rfl⟩ := Option.map_eq_some_iff.mp hsealed
    exact hrebound.every_sealOver hrebind hseal hhead _ (htail tail' htail')

end Ready

/-! ### Tables -/

section Tables

variable {base : ReadState}

/-- All entities are of tables that there are. -/
def OfTables (catalog : Catalog) : SortedMap (ℕ × ℕ) EntityData → Prop :=
  Every fun key _ => key.1 ∈ catalog

theorem mem_of_table {catalog : Catalog} {id : ℕ} {table : Table}
    (h : catalog.table id = .ok table) : id ∈ catalog := by
  unfold Catalog.table at h
  split at h
  · next hfound => exact ExtTreeMap.mem_iff_isSome_getElem?.mpr (by rw [hfound]; rfl)
  · cases h

/-- A transaction has entities of its tables only. -/
theorem ofTables_invariant (env : Env) : Staging.Invariant env fun s =>
    s.base = base ∧ (∀ table ∈ base.catalog, table ∈ s.catalog) ∧ OfTables s.catalog s.staged where
  same s s' hsame := by
    rintro ⟨hbase, hsubset, hstaged⟩
    rw [hsame.base, hsame.catalog, hsame.staged]
    exact ⟨hbase, hsubset, hstaged⟩
  run operation s := by
    rintro ⟨hbase, hsubset, hstaged⟩
    have hdefines := Staging.run_defines env operation s
    have hloads {key : ℕ × ℕ} {staged : SortedMap (ℕ × ℕ) EntityData}
        (hloads : s.Loads key staged) : OfTables s.catalog staged := by
      cases hloads with
      | kept => exact hstaged
      | loaded hnew hdata =>
        obtain ⟨⟨t, ht⟩, -⟩ := ReadState.loadCharged_result hdata
        exact hstaged.insert (hsubset key.1 (mem_of_table (hbase ▸ ht)))
    rcases hrun : (Staging.run env operation).run s with ⟨r, s'⟩
    rw [hrun] at hdefines
    obtain ⟨-, hcases⟩ := Staging.run_stages hrun
    have hmore (table : ℕ) (htable : table ∈ s.catalog) : table ∈ s'.catalog :=
      hdefines.subset table htable
    refine ⟨hdefines.base.trans hbase, fun table htable => hmore table (hsubset table htable), ?_⟩
    dsimp only
    rcases hcases with ⟨-, hstages⟩ | ⟨-, -, hsame | ⟨key, -, hload⟩⟩
    · generalize s'.catalog = catalog, s'.staged = staged at hstages hmore
      cases hstages with
      | change => exact hstaged.mono fun key _ hkey => hmore key.1 hkey
      | edit hkey htable hload hedits => exact (hloads hload).insert (mem_of_table htable)
    · rw [hsame]
      exact hstaged.mono fun key _ hkey => hmore key.1 hkey
    · exact (hloads hload).mono fun key _ hkey => hmore key.1 hkey

theorem Prepared.HandedOver.ofTables {b : Prepared} (h : b.HandedOver base) :
    OfTables b.catalog b.staged := by
  obtain ⟨s, deadline, ⟨-, -, hstaged⟩, rfl⟩ :=
    h.invariant (@ofTables_invariant base) fun s hbase _ hcatalog hstaged _ => by
      rw [hcatalog, hstaged]
      exact ⟨hbase, fun _ h => h, every_empty⟩
  exact hstaged

variable {env : Env} {root : Checkpoint} {tick lsn : ℕ} {ps : List (Prepared × ℕ)}
  {qs : List (Prepared × Bytes)}

/-- **The catalog behind a group** has the tables of all its batches. -/
theorem Ready.subset_catalog (h : Ready env root tick lsn ps qs) {db : Database}
    (hsubset : ∀ p ∈ ps, ∀ table ∈ db.state.catalog, table ∈ p.1.catalog)
    (hsame : ∀ p ∈ ps, p.1.changesCatalog = false → p.1.catalog = db.state.catalog)
    (hlast : ps.Pairwise fun p _ => p.1.changesCatalog = false) :
    ∀ p ∈ ps, ∀ table ∈ p.1.catalog,
      table ∈ (publishEach (qs.map Prod.fst) db).state.catalog := by
  induction h generalizing db with
  | nil => exact List.forall_mem_nil _
  | @cons lsn b b' frame ps qs hne hbase hawake hmax hframe hrebound rest ih =>
    obtain ⟨hhead, hlast⟩ := List.pairwise_cons.mp hlast
    obtain ⟨-, hsubset⟩ := List.forall_mem_cons.mp hsubset
    obtain ⟨hsame₀, hsame⟩ := List.forall_mem_cons.mp hsame
    set db₁ := (b'.restamp (db.state.lsn + 1)).publishState (db.state.lsn + 1) db with hdb₁
    have hcatalog : db₁.state.catalog = b.catalog := hrebound.spec.2.catalog
    change ∀ p ∈ (b, lsn + 1) :: ps, ∀ table ∈ p.1.catalog,
      table ∈ (publishEach (qs.map Prod.fst) db₁).state.catalog
    cases rest with
    | nil => exact List.forall_mem_singleton.mpr fun table htable => hcatalog ▸ htable
    | @cons _ b₂ b₂' frame₂ ps qs hne₂ hbase₂ hawake₂ hmax₂ hframe₂ hrebound₂ rest =>
      -- something comes behind the first batch, so it defines nothing
      have heq : db₁.state.catalog = db.state.catalog :=
        hcatalog.trans (hsame₀ (hhead _ List.mem_cons_self))
      have hrest : Ready env root tick (lsn + 1) ((b₂, lsn + 1 + 1) :: ps) ((b₂', frame₂) :: qs) :=
        .cons hne₂ hbase₂ hawake₂ hmax₂ hframe₂ hrebound₂ rest
      refine List.forall_mem_cons.mpr ⟨fun table htable => ?_, ih ?_ ?_ hlast⟩
      · exact (hrest.catalog (heq ▸ hsubset) (heq ▸ hsame) hlast).1 table (hcatalog ▸ htable)
      · rwa [heq]
      · rwa [heq]

end Tables

/-! ### Sources -/

/-- The entities that a checkpoint has. -/
def Checkpoint.Has (root : Checkpoint) (key : ℕ × ℕ) : Prop :=
  ∃ value, root.locate key.1 key.2 = .ok (some value)

/-- An entity that is not read from a checkpoint is not there. -/
theorem Checkpoint.not_has {root : Checkpoint} {charged : Bool} {table id : ℕ}
    (h : (root.entity charged table id).result = .ok none) : ¬root.Has (table, id) := by
  rintro ⟨value, hvalue⟩
  unfold Checkpoint.entity at h
  rw [Guarded.result_bind, Guarded.result_lift, hvalue, ok_bind] at h
  rw [Guarded.result_bind] at h
  obtain ⟨current, -, h⟩ := bind_eq_ok.mp h
  rw [Guarded.result_bind] at h
  obtain ⟨base, -, h⟩ := bind_eq_ok.mp h
  split at h
  · cases h
  · cases h

/-- **The sources of entities** are such checkpoints, and they have them. -/
def Bound (R : Checkpoint → Prop) : SortedMap (ℕ × ℕ) EntityData → Prop :=
  Every fun key data => ∀ source ∈ data.disk, R source.root ∧ source.root.Has key

section Bound

variable {R : Checkpoint → Prop} {base : ReadState} {root : Checkpoint}

/-- What is loaded from a view has its source in the view. -/
theorem ReadState.bound_of_loadCharged (hroot : R base.root) (hoverlay : Bound R base.overlay)
    {charged : Bool} {table id : ℕ} {data : EntityData}
    (h : (base.loadCharged charged table id).result = .ok (some data)) :
    ∀ source ∈ data.disk, R source.root ∧ source.root.Has (table, id) := by
  obtain ⟨-, hfound | ⟨-, hdisk⟩⟩ := loadCharged_result h
  · exact hoverlay _ data hfound
  · obtain ⟨value, hvalue, -, -, -, -, -, -, hsource⟩ := Checkpoint.entity_result hdisk
    rw [hsource]
    rintro source ⟨⟩
    exact ⟨hroot, value, hvalue⟩

/-- **Operations keep the sources of entities.** -/
theorem bound_invariant (hroot : R base.root) (hoverlay : Bound R base.overlay) (env : Env) :
    Staging.Invariant env fun s => s.base = base ∧ Bound R s.staged := by
  refine .of_every env (fun charged table id data => ReadState.bound_of_loadCharged hroot hoverlay)
    fun s staged table operation key data hbase hstaged hkey hedits => ?_
  intro source hsource
  cases hedits with
  | create => cases hsource
  | apply hdata | delete hdata | snapshot hdata =>
    cases hkey
    exact hstaged _ _ hdata source hsource
  | retain hdata hretain =>
    cases hkey
    rcases EntityData.retain_result hretain with rfl | ⟨version, kept, -, -, -, rfl⟩
    · exact hstaged _ _ hdata source hsource
    · exact hstaged _ _ hdata source hsource

theorem Prepared.HandedOver.bound {b : Prepared} (h : b.HandedOver base) (hroot : R base.root)
    (hoverlay : Bound R base.overlay) : Bound R b.staged := by
  obtain ⟨s, deadline, ⟨-, hstaged⟩, rfl⟩ :=
    h.invariant (bound_invariant hroot hoverlay) fun s hbase _ _ hstaged _ => ⟨hbase, by
      rw [hstaged]
      exact every_empty⟩
  exact hstaged

variable (hwithin : ∀ source, R source → ∀ key, source.Has key → root.Has key)
  (hsame : ∀ source, R source → source.manifest.generation = root.manifest.generation →
    source = root)

include hwithin hsame

/-- **An entity that is bound to a root** has its source in that root, if it has one. -/
theorem EntityData.rebind_bound {generation : ℕ} {key : ℕ × ℕ} {data data' : EntityData}
    (hdata : ∀ source ∈ data.disk, R source.root ∧ source.root.Has key)
    (h : (data.rebind root generation key).result = .ok data') :
    ∀ source ∈ data'.disk, source.root = root ∧ source.root.Has key := by
  unfold EntityData.rebind at h
  split at h
  · rw [Guarded.result_bind] at h
    obtain ⟨persisted, hpersisted, h⟩ := bind_eq_ok.mp h
    cases persisted with
    | none =>
      cases h
      intro source hsource
      obtain ⟨hR, hhas⟩ := hdata source hsource
      exact absurd (hwithin _ hR _ hhas) (Checkpoint.not_has hpersisted)
    | some persisted =>
      obtain ⟨value, hvalue, -, -, -, -, -, -, hdisk⟩ := Checkpoint.entity_result hpersisted
      have hbound (source : DiskHistory) (hsource : source ∈ persisted.disk) :
          source.root = root ∧ source.root.Has key := by
        rw [hdisk] at hsource
        cases hsource
        exact ⟨rfl, value, hvalue⟩
      dsimp only at h
      split at h
      · rw [Guarded.result_bind] at h
        obtain ⟨_, -, h⟩ := bind_eq_ok.mp h
        cases h
        exact hbound
      · cases h
        exact hbound
  · next hcurrent =>
    cases h
    intro source hsource
    obtain ⟨hR, hhas⟩ := hdata source hsource
    refine ⟨hsame _ hR ?_, hhas⟩
    -- it is bound to that root already
    by_contra hother
    refine hcurrent (Or.inr ?_)
    rw [EntityData.generation, Option.mem_def.mp hsource]
    exact decide_eq_true hother

end Bound

/-! ### Views and databases -/

/-- **A view that rests on such checkpoints**: its own one and the sources of its entities. -/
structure ReadState.Rests (R : Checkpoint → Prop) (view : ReadState) : Prop where
  root : R view.root
  overlay : Bound R view.overlay

/-- What holds of all entities that a database has in memory. -/
structure Database.Every (P : ℕ × ℕ → EntityData → Prop) (db : Database) : Prop where
  state : Store.Every P db.state.overlay
  tail : ∀ tail ∈ db.checkpointTail, Store.Every P tail

/-- **A database that rests on such checkpoints.** -/
structure Database.Rests (R : Checkpoint → Prop) (db : Database) : Prop where
  state : db.state.Rests R
  tail : ∀ tail ∈ db.checkpointTail, Bound R tail

section Rests

variable {R S : Checkpoint → Prop} {view : ReadState} {db : Database}

theorem Bound.mono {entities : SortedMap (ℕ × ℕ) EntityData} (h : Bound R entities)
    (hRS : ∀ root, R root → S root) : Bound S entities :=
  Every.mono h fun _ _ hdata source hsource =>
    ⟨hRS _ (hdata source hsource).1, (hdata source hsource).2⟩

theorem Bound.and {entities : SortedMap (ℕ × ℕ) EntityData} (h : Bound R entities)
    (h' : Bound S entities) : Bound (fun root => R root ∧ S root) entities :=
  fun key data hdata source hsource =>
    ⟨⟨(h key data hdata source hsource).1, (h' key data hdata source hsource).1⟩,
      (h key data hdata source hsource).2⟩

theorem ReadState.Rests.mono (h : view.Rests R) (hRS : ∀ root, R root → S root) : view.Rests S :=
  ⟨hRS _ h.root, h.overlay.mono hRS⟩

theorem ReadState.Rests.and (h : view.Rests R) (h' : view.Rests S) :
    view.Rests fun root => R root ∧ S root :=
  ⟨⟨h.root, h'.root⟩, h.overlay.and h'.overlay⟩

theorem Database.Rests.mono (h : db.Rests R) (hRS : ∀ root, R root → S root) : db.Rests S :=
  ⟨h.state.mono hRS, fun tail htail => (h.tail tail htail).mono hRS⟩

theorem Database.Rests.and (h : db.Rests R) (h' : db.Rests S) :
    db.Rests fun root => R root ∧ S root :=
  ⟨h.state.and h'.state, fun tail htail => (h.tail tail htail).and (h'.tail tail htail)⟩

end Rests

end EveDB.Store
