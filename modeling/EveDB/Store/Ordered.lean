import EveDB.Store.Edits
import EveDB.Store.Singles

/-!
# Ordered histories

The events of an entity in memory come in the order of their versions: those that have been
committed first, then those of the running transaction (`EntityData.Ordered`). Operations keep it
so (`EntityData.StagedOn.edits`), and so do binding, stamping and publishing what is staged; in a
view, no event belongs to a running transaction any more (`EntityData.Sealed`).
-/

namespace EveDB.Store

open Fallible

/-! ### Ordered histories -/

/-- All entities are so. -/
def Each (P : EntityData → Prop) (entities : SortedMap (ℕ × ℕ) EntityData) : Prop :=
  ∀ (key : ℕ × ℕ) (data : EntityData), entities[key]? = some data → P data

section Each

variable {P Q : EntityData → Prop} {entities : SortedMap (ℕ × ℕ) EntityData}

theorem each_empty : Each P ∅ := by
  intro key data h
  rw [Std.ExtTreeMap.getElem?_empty] at h
  cases h

theorem Each.mono (h : Each P entities) (hPQ : ∀ data, P data → Q data) : Each Q entities :=
  fun key data hdata => hPQ data (h key data hdata)

theorem Each.insert (h : Each P entities) {key : ℕ × ℕ} {data : EntityData} (hdata : P data) :
    Each P (entities.insert key data) := by
  intro key' data' hdata'
  rw [Std.ExtTreeMap.getElem?_insert] at hdata'
  split at hdata'
  · cases hdata'
    exact hdata
  · exact h key' data' hdata'

end Each

namespace EntityData

/-- **An ordered history**: no event is ahead of the entity, and those of the running transaction
follow each other and all that have been committed. -/
structure Ordered (data : EntityData) : Prop where
  le : ∀ event ∈ data.events, event.version ≤ data.current.version
  ascending : data.events.Pairwise fun a b => a.version < b.version
  committed_le : ∀ (version : ℕ) (event : Event), data.committed[version]? = some event →
    version ≤ data.current.version
  committed_lt : ∀ (version : ℕ) (event : Event), data.committed[version]? = some event →
    ∀ own ∈ data.events, version < own.version

/-- An entity without events of its own. -/
theorem Ordered.of_nil {data : EntityData} (hevents : data.events = [])
    (h : ∀ (version : ℕ) (event : Event), data.committed[version]? = some event →
      version ≤ data.current.version) : data.Ordered := by
  refine ⟨?_, ?_, h, ?_⟩
  · rw [hevents]
    exact List.forall_mem_nil _
  · rw [hevents]
    exact .nil
  · rw [hevents]
    exact fun _ _ _ => List.forall_mem_nil _

/-- An entity of a view: nothing of it belongs to a running transaction. -/
structure Sealed (data : EntityData) : Prop where
  events : data.events = []
  ordered : data.Ordered

/-- Events of the running transaction are found when they have been shared. -/
theorem Ordered.getElem?_own {data : EntityData} (h : data.Ordered) {event : Event}
    (hevent : event ∈ data.events) :
    (data.sealEvents.committed)[event.version]? = some event := by
  have hdistinct : (data.events.map fun event => (event.version, event)).Pairwise
      fun a b => ¬ compare a.1 b.1 = .eq :=
    List.pairwise_map.mpr (h.ascending.imp fun hlt heq =>
      hlt.ne (Std.LawfulEqOrd.eq_of_compare heq))
  exact Std.ExtTreeMap.getElem?_insertMany_list_of_mem Std.ReflOrd.compare_self hdistinct
    (List.mem_map.mpr ⟨event, hevent, rfl⟩)

/-- Other events are found as they were. -/
theorem getElem?_other {data : EntityData} {version : ℕ}
    (h : ∀ event ∈ data.events, event.version ≠ version) :
    (data.sealEvents.committed)[version]? = data.committed[version]? := by
  refine Std.ExtTreeMap.getElem?_insertMany_list_of_contains_eq_false ?_
  rw [← Bool.not_eq_true, List.contains_iff_mem, List.mem_map]
  rintro ⟨⟨v, event⟩, hmem, rfl⟩
  obtain ⟨own, hown, heq⟩ := List.mem_map.mp hmem
  cases heq
  exact h event hown rfl

/-- **What sharing the events of a transaction adds** to those that have been committed. -/
theorem Ordered.getElem?_sealEvents {data : EntityData} (h : data.Ordered) {version : ℕ}
    {event : Event} (hevent : (data.sealEvents.committed)[version]? = some event) :
    (event ∈ data.events ∧ event.version = version) ∨ data.committed[version]? = some event := by
  by_cases hown : ∃ own ∈ data.events, own.version = version
  · obtain ⟨own, hmem, rfl⟩ := hown
    rw [h.getElem?_own hmem] at hevent
    cases hevent
    exact Or.inl ⟨hmem, rfl⟩
  · rw [getElem?_other fun own hmem heq => hown ⟨own, hmem, heq⟩] at hevent
    exact Or.inr hevent

/-- **Sharing the events of a transaction** keeps the order. -/
theorem Ordered.sealEvents {data : EntityData} (h : data.Ordered) : data.sealEvents.Sealed := by
  refine ⟨rfl, .of_nil rfl fun version event hevent => ?_⟩
  rcases h.getElem?_sealEvents hevent with ⟨hown, rfl⟩ | hcommitted
  · exact h.le event hown
  · exact h.committed_le version event hcommitted

end EntityData

/-- **What is laid over a view** hides what was there. -/
theorem getElem?_sealOver (staged overlay : SortedMap (ℕ × ℕ) EntityData) (key : ℕ × ℕ) :
    (Prepared.sealOver staged overlay)[key]? =
      (staged[key]?.map EntityData.sealEvents).or overlay[key]? := by
  have hlist : (staged.toList.map fun entry => (entry.1, entry.2.sealEvents)) =
      (staged.map fun _ data => data.sealEvents).toList := by
    rw [Std.ExtTreeMap.toList_map]
  change (overlay.insertMany (staged.toList.map fun entry =>
    (entry.1, entry.2.sealEvents)))[key]? = _
  rw [hlist, SortedMap.getElem?_insertMany_toList, Std.ExtTreeMap.getElem?_map]

theorem Each.sealOver {staged overlay : SortedMap (ℕ × ℕ) EntityData}
    (h : Each EntityData.Sealed overlay) (hstaged : Each EntityData.Ordered staged) :
    Each EntityData.Sealed (Prepared.sealOver staged overlay) := by
  intro key data hdata
  rw [getElem?_sealOver] at hdata
  cases hfound : staged[key]? with
  | none =>
    rw [hfound] at hdata
    exact h key data hdata
  | some data' =>
    rw [hfound] at hdata
    cases hdata
    exact (hstaged key data' hfound).sealEvents

/-- An entity that is loaded from such a view is sealed. -/
theorem ReadState.sealed_of_loadCharged {view : ReadState}
    (hsealed : Each EntityData.Sealed view.overlay) {charged : Bool} {table id : ℕ}
    {data : EntityData} (h : (view.loadCharged charged table id).result = .ok (some data)) :
    data.Sealed := by
  obtain ⟨-, hoverlay | ⟨-, hdisk⟩⟩ := loadCharged_result h
  · exact hsealed _ data hoverlay
  · obtain ⟨value, -, -, -, -, hevents, hcommitted, -⟩ := Checkpoint.entity_result hdisk
    refine ⟨hevents, .of_nil hevents fun version event hevent => ?_⟩
    rw [hcommitted, Std.ExtTreeMap.getElem?_empty] at hevent
    cases hevent

/-! ### The batches of a transaction -/

/-- **A transaction on a view hands a batch over** to be committed. -/
def Prepared.HandedOver (view : ReadState) (batch : Prepared) : Prop :=
  ∃ (env : Env) (options : Options) (requested : TransactionOptions) (tick : ℕ) (calls : List Call)
    (results : List (Result Unit)) (t t' : Transaction) (s : Staging) (deadline : ℕ),
    Transaction.new env view options false requested tick = .ok t ∧
      Call.performAll env calls t = (results, t') ∧ t'.take env = .ok s ∧ s.failed = false ∧
      batch = s.prepare (some deadline)

/-- **What holds of all entities of the base view, and is kept by every operation**, holds of all
entities that are staged. -/
theorem Staging.Invariant.of_each {base : ReadState} {P : EntityData → Prop} (env : Env)
    (hload : ∀ charged table id data,
      (base.loadCharged charged table id).result = .ok (some data) → P data)
    (hedit : ∀ (s : Staging) staged table operation data, s.base = base → Each P staged →
      s.Edits staged table operation data → P data) :
    Staging.Invariant env fun s => s.base = base ∧ Each P s.staged where
  same s s' hsame := by
    rintro ⟨hbase, hstaged⟩
    rw [hsame.base, hsame.staged]
    exact ⟨hbase, hstaged⟩
  run operation s := by
    rintro ⟨hbase, hstaged⟩
    have hloads {key : ℕ × ℕ} {staged : SortedMap (ℕ × ℕ) EntityData}
        (hloads : s.Loads key staged) : Each P staged := by
      cases hloads with
      | kept => exact hstaged
      | loaded hnew hdata =>
        rw [hbase] at hdata
        exact hstaged.insert (hload _ _ _ _ hdata)
    rcases hrun : (Staging.run env operation).run s with ⟨r, s'⟩
    obtain ⟨⟨hbase', -, -⟩, hcases⟩ := Staging.run_stages hrun
    refine ⟨hbase'.trans hbase, ?_⟩
    dsimp only
    rcases hcases with ⟨-, hstages⟩ | ⟨-, -, hsame | ⟨key, -, hload⟩⟩
    · generalize s'.catalog = catalog, s'.staged = staged at hstages
      cases hstages with
      | change => exact hstaged
      | edit hkey htable hload hedits =>
        exact (hloads hload).insert (hedit s _ _ _ _ hbase (hloads hload) hedits)
    · rw [hsame]
      exact hstaged
    · exact hloads hload

/-- The event a write adds. -/
theorem Staging.nextEvent_eq {base : ReadState} {schema : Schema} {id : ℕ} {current : Entity}
    {kind : EventKind} {fields : Fields} {event : Event}
    (h : nextEvent base schema id current kind fields = .ok event) :
    current.deleted = false ∧ current.version + 1 ≤ maxU64 ∧ base.lsn + 1 ≤ maxU64 ∧
      event = ⟨current.version + 1, base.lsn + 1, schema.version, kind, fields⟩ := by
  unfold nextEvent at h
  split at h
  · cases h
  · next hlive =>
    split at h
    · cases h
    · next hversion =>
      split at h
      · cases h
      · next htransaction =>
        cases h
        obtain ⟨rfl, hle⟩ := checkedAdd_eq_some.mp hversion
        obtain ⟨rfl, hle'⟩ := checkedAdd_eq_some.mp htransaction
        exact ⟨Bool.eq_false_iff.mpr hlive, hle, hle', rfl⟩

/-- **What an event makes of a state.** -/
theorem applyEvent_eq {state state' : Entity} {event : Event} {table : Table}
    (h : applyEvent state event table = .ok state') :
    state.deleted = false ∧ event.version = state.version + 1 ∧ state.version + 1 ≤ maxU64 ∧
      ∃ schema fields, table.version event.schemaVersion = .ok schema ∧
        schema.normalize (state.fields.insertMany event.fields.toList) true = .ok fields ∧
        state' =
          { state with
            fields, schemaVersion := event.schemaVersion, version := event.version,
            deleted := event.kind = .delete } := by
  unfold applyEvent at h
  split at h
  · cases h
  · next hvalid =>
    rw [not_or, not_not] at hvalid
    obtain ⟨hlive, hversion⟩ := hvalid
    obtain ⟨hversion, hle⟩ := checkedAdd_eq_some.mp hversion
    obtain ⟨schema, hschema, h⟩ := bind_eq_ok.mp h
    obtain ⟨fields, hfields, h⟩ := bind_eq_ok.mp h
    cases h
    exact ⟨Bool.eq_false_iff.mpr hlive, hversion, hle, schema, fields, hschema, hfields, rfl⟩

section Ordered

variable {base : ReadState}

/-- An entity that a transaction has staged: its events are stamped with the sequence behind the
base, until the batch is committed. -/
structure EntityData.StagedOn (base : ReadState) (data : EntityData) : Prop where
  ordered : data.Ordered
  stamped : ∀ event ∈ data.events, event.transaction = base.lsn + 1

/-- A write adds an event behind all others. -/
theorem EntityData.StagedOn.addEvent {data : EntityData} (h : data.StagedOn base) {event : Event}
    {current : Entity} (hevent : event.version = data.current.version + 1)
    (hstamp : event.transaction = base.lsn + 1) (hcurrent : current.version = event.version) :
    StagedOn base { data with current, events := data.events ++ [event] } := by
  obtain ⟨⟨hle, hascending, hcommitted, hlt⟩, hstamped⟩ := h
  have hnew : data.current.version < current.version := by omega
  refine ⟨⟨?_, ?_, ?_, ?_⟩, ?_⟩
  · refine List.forall_mem_append.mpr ⟨fun own hown => (hle own hown).trans hnew.le, ?_⟩
    exact List.forall_mem_singleton.mpr hcurrent.ge
  · refine List.pairwise_append.mpr ⟨hascending, List.pairwise_singleton _ _, fun own hown => ?_⟩
    exact List.forall_mem_singleton.mpr ((hle own hown).trans_lt (hcurrent ▸ hnew))
  · exact fun version e he => (hcommitted version e he).trans hnew.le
  · intro version e he
    refine List.forall_mem_append.mpr ⟨hlt version e he, List.forall_mem_singleton.mpr ?_⟩
    exact (hcommitted version e he).trans_lt (hcurrent ▸ hnew)
  · exact List.forall_mem_append.mpr ⟨hstamped, List.forall_mem_singleton.mpr hstamp⟩

/-- **Operations keep histories in order**, and stamp their events. -/
theorem EntityData.StagedOn.edits {s : Staging} (hbase : s.base = base)
    {staged : SortedMap (ℕ × ℕ) EntityData} (h : Each (StagedOn base) staged) {table : Table}
    {operation : Operation} {data : EntityData}
    (hedits : s.Edits staged table operation data) : data.StagedOn base := by
  have hwrite (key : ℕ × ℕ) {data : EntityData} {schema : Schema} {event : Event}
      {kind : EventKind} {fields : Fields} {current : Entity} (hdata : staged[key]? = some data)
      (hevent : Staging.nextEvent s.base schema key.2 data.current kind fields = .ok event)
      (hcurrent : applyEvent data.current event table = .ok current) :
      StagedOn base { data with current, events := data.events ++ [event] } := by
    rw [hbase] at hevent
    obtain ⟨-, -, -, rfl⟩ := Staging.nextEvent_eq hevent
    obtain ⟨-, -, -, _, _, -, -, rfl⟩ := applyEvent_eq hcurrent
    exact (h _ _ hdata).addEvent rfl rfl rfl
  cases hedits with
  | @create t id fields row schema =>
    refine ⟨.of_nil rfl fun version event hevent => ?_, List.forall_mem_nil _⟩
    rw [Staging.created, Std.ExtTreeMap.getElem?_empty] at hevent
    cases hevent
  | @apply t id _ _ _ _ _ _ hdata hschema hchanges hsize hevent hcurrent =>
    exact hwrite (t, id) hdata hevent hcurrent
  | @delete t id _ _ _ _ hdata hschema hevent hcurrent =>
    exact hwrite (t, id) hdata hevent hcurrent
  | retain hdata hretain =>
    rcases EntityData.retain_result hretain with rfl | ⟨version, kept, -, -, -, rfl⟩
    · exact h _ _ hdata
    · obtain ⟨⟨hle, hascending, hcommitted, hlt⟩, hstamped⟩ := h _ _ hdata
      refine ⟨⟨?_, hascending.filter _, ?_, ?_⟩, ?_⟩
      · exact fun own hown => hle own (List.mem_of_mem_filter hown)
      · exact fun v e he => hcommitted v e (getElem?_retainAbove he).2
      · exact fun v e he own hown =>
          hlt v e (getElem?_retainAbove he).2 own (List.mem_of_mem_filter hown)
      · exact fun own hown => hstamped own (List.mem_of_mem_filter hown)
  | snapshot hdata =>
    obtain ⟨⟨hle, hascending, hcommitted, hlt⟩, hstamped⟩ := h _ _ hdata
    exact ⟨⟨hle, hascending, hcommitted, hlt⟩, hstamped⟩

/-- So what is staged on an ordered view is ordered. -/
theorem EntityData.StagedOn.invariant (hsealed : Each EntityData.Sealed base.overlay) (env : Env) :
    Staging.Invariant env fun s => s.base = base ∧ Each (StagedOn base) s.staged := by
  refine .of_each env (fun charged table id data hdata => ?_)
    fun s staged table operation data hbase h hedits => edits hbase h hedits
  obtain ⟨hevents, hordered⟩ := ReadState.sealed_of_loadCharged hsealed hdata
  refine ⟨hordered, ?_⟩
  rw [hevents]
  exact List.forall_mem_nil _

end Ordered

/-- What `Transaction.new` begins with. -/
theorem Transaction.new_value {env : Env} {view : ReadState} {options : Options} {recovery : Bool}
    {requested : TransactionOptions} {tick : ℕ} {t : Transaction}
    (h : Transaction.new env view options recovery requested tick = .ok t) :
    ∃ s, Staging.new env view options recovery tick = .ok s ∧ t.value = some s.looked := by
  obtain ⟨s, hs, h⟩ := bind_eq_ok.mp h
  refine ⟨s, hs, ?_⟩
  dsimp only at h
  split at h
  · obtain ⟨deadline, -, h⟩ := bind_eq_ok.mp h
    cases h
    rfl
  · cases h
    rfl

/-- What can be taken has been staged. -/
theorem Transaction.take_value {env : Env} {t : Transaction} {s : Staging}
    (h : t.take env = .ok s) : ∃ s₀, t.value = some s₀ ∧ s = s₀.looked := by
  unfold Transaction.take at h
  split at h
  · cases h
  · next s₀ hvalue =>
    split at h
    · cases h
    · cases h
      exact ⟨s₀, hvalue, rfl⟩

/-- **What every operation keeps, a batch that is handed over has.** -/
theorem Prepared.HandedOver.invariant {view : ReadState} {batch : Prepared}
    (h : batch.HandedOver view) {I : Staging → Prop} (hI : ∀ env, Staging.Invariant env I)
    (hnew : ∀ s : Staging, s.base = view → s.permit = true → s.catalog = view.catalog →
      s.staged = ∅ → s.operations = [] → I s) :
    ∃ s deadline, I s ∧ batch = s.prepare (some deadline) := by
  obtain ⟨env, options, requested, tick, calls, results, t, t', s, deadline, ht, hcalls, htake, -,
    rfl⟩ := h
  obtain ⟨s₀, hs₀, hvalue⟩ := Transaction.new_value ht
  obtain ⟨s₁, hvalue', rfl⟩ := Transaction.take_value htake
  obtain ⟨_, -, hs₀⟩ := bind_eq_ok.mp hs₀
  cases hs₀
  refine ⟨_, deadline, (hI env).same s₁ _ ⟨rfl, rfl, rfl, rfl, rfl⟩ ?_, rfl⟩
  refine (hI env).performAll (fun s hs => ?_) hcalls s₁ hvalue'
  rw [hvalue] at hs
  cases hs
  exact hnew _ rfl rfl rfl rfl rfl

/-- The base of a batch is the sequence of its view, and its events are stamped behind it. -/
theorem Prepared.HandedOver.stagedOn {view : ReadState} {batch : Prepared}
    (h : batch.HandedOver view) (hsealed : Each EntityData.Sealed view.overlay) :
    batch.baseSequence = view.lsn ∧ Each (EntityData.StagedOn view) batch.staged := by
  obtain ⟨s, deadline, ⟨hbase, hstaged⟩, rfl⟩ :=
    h.invariant (EntityData.StagedOn.invariant hsealed) fun s hbase _ _ hstaged _ => ⟨hbase, by
      rw [hstaged]
      exact each_empty⟩
  exact ⟨congrArg ReadState.lsn hbase, hstaged⟩

/-! ### Binding keeps what is staged -/

/-- The entity is the same, but for what storage holds of it. -/
structure EntityData.Kept (data data' : EntityData) : Prop where
  current : data'.current = data.current
  base : data'.base = data.base
  events : data'.events = data.events
  committed : ∀ (version : ℕ) (event : Event), data'.committed[version]? = some event →
    data.committed[version]? = some event

theorem EntityData.Kept.refl (data : EntityData) : data.Kept data := ⟨rfl, rfl, rfl, fun _ _ h => h⟩

theorem EntityData.Kept.ordered {data data' : EntityData} (h : data.Kept data')
    (hordered : data.Ordered) : data'.Ordered := by
  obtain ⟨hle, hascending, hcommitted, hlt⟩ := hordered
  refine ⟨?_, ?_, fun version event hevent => ?_, fun version event hevent => ?_⟩
  · rw [h.events, h.current]
    exact hle
  · rw [h.events]
    exact hascending
  · rw [h.current]
    exact hcommitted version event (h.committed version event hevent)
  · rw [h.events]
    exact hlt version event (h.committed version event hevent)

/-- Binding the history of an entity keeps it. -/
theorem EntityData.rebind_kept {root : Checkpoint} {generation : ℕ} {key : ℕ × ℕ}
    {data data' : EntityData} (h : (data.rebind root generation key).result = .ok data') :
    data.Kept data' := by
  unfold EntityData.rebind at h
  split at h
  · rw [Guarded.result_bind] at h
    obtain ⟨persisted, -, h⟩ := bind_eq_ok.mp h
    cases persisted with
    | none =>
      cases h
      exact .refl data
    | some persisted =>
      have hkept (disk : Option DiskHistory) (snapshots : BTreeMap Entity) :
          data.Kept { data with
            committed := retainAbove data.committed persisted.current.version
            snapshots, disk } :=
        ⟨rfl, rfl, rfl, fun version event h => (getElem?_retainAbove h).2⟩
      dsimp only at h
      split at h
      · rw [Guarded.result_bind] at h
        obtain ⟨_, -, h⟩ := bind_eq_ok.mp h
        cases h
        exact hkept _ _
      · cases h
        exact hkept _ _
  · cases h
    exact .refl data

/-- The same entities are staged, each of them as it was. -/
def SameEntities (staged staged' : SortedMap (ℕ × ℕ) EntityData) : Prop :=
  ∀ key : ℕ × ℕ, Option.Rel EntityData.Kept staged[key]? staged'[key]?

/-- Binding a batch keeps what it has staged. -/
theorem rebindAll_sameEntities {root : Checkpoint} {generation : ℕ}
    {l : List ((ℕ × ℕ) × EntityData)} {staged cur staged' : SortedMap (ℕ × ℕ) EntityData}
    (hl : ∀ p ∈ l, staged[p.1]? = some p.2) (hcur : SameEntities staged cur)
    (h : (rebindAll root generation l cur).result = .ok staged') :
    SameEntities staged staged' := by
  induction l generalizing cur with
  | nil =>
    cases h
    exact hcur
  | cons p l ih =>
    obtain ⟨key, data⟩ := p
    obtain ⟨hdata, hl⟩ := List.forall_mem_cons.mp hl
    rw [rebindAll, Guarded.result_bind] at h
    obtain ⟨data', hdata', h⟩ := bind_eq_ok.mp h
    refine ih hl (fun k => ?_) h
    rw [Std.ExtTreeMap.getElem?_insert]
    split
    · next heq =>
      obtain rfl := Std.LawfulEqOrd.eq_of_compare heq
      rw [show staged[key]? = some data from hdata]
      exact .some (EntityData.rebind_kept hdata')
    · exact hcur k

theorem Prepared.Rebound.sameEntities {env : Env} {root : Checkpoint} {b b' : Prepared}
    (h : b.Rebound env root b') : SameEntities b.staged b'.staged := by
  refine rebindAll_sameEntities (fun p hp => ?_) (fun key => ?_) h.spec.1
  · exact Std.ExtTreeMap.mem_toList_iff_getElem?_eq_some.mp hp
  · cases b.staged[key]? with
    | none => exact .none
    | some data => exact .some (.refl data)

/-! ### Ordered batches -/

/-- Everything a batch has staged is ordered. -/
def Prepared.Ordered (b : Prepared) : Prop := Each EntityData.Ordered b.staged

/-- The entity with the events of its transaction stamped. -/
def EntityData.stamped (base n : ℕ) (data : EntityData) : EntityData :=
  { data with events := data.events.map fun event =>
      if base < event.transaction then { event with transaction := n } else event }

/-- Stamping changes no version. -/
theorem EntityData.map_version_stamped (base n : ℕ) (data : EntityData) :
    (data.stamped base n).events.map Event.version = data.events.map Event.version := by
  rw [stamped, List.map_map]
  refine List.map_congr_left fun event _ => ?_
  rw [Function.comp_apply]
  split <;> rfl

theorem EntityData.Ordered.stamped {data : EntityData} (h : data.Ordered) (base n : ℕ) :
    (data.stamped base n).Ordered := by
  obtain ⟨hle, hascending, hcommitted, hlt⟩ := h
  have hversions := data.map_version_stamped base n
  refine ⟨?_, ?_, hcommitted, fun version event hevent => ?_⟩
  · refine (List.forall_mem_map (P := fun v => v ≤ data.current.version)).mp ?_
    rw [hversions]
    exact List.forall_mem_map.mpr hle
  · refine List.pairwise_map.mp (?_ : ((data.stamped base n).events.map Event.version).Pairwise
      (· < ·))
    rw [hversions]
    exact List.pairwise_map.mpr hascending
  · refine (List.forall_mem_map (P := fun v => version < v)).mp ?_
    rw [hversions]
    exact List.forall_mem_map.mpr (hlt version event hevent)

theorem Prepared.Ordered.restamp {b : Prepared} (h : b.Ordered) (n : ℕ) :
    (b.restamp n).Ordered := by
  intro key data hdata
  change (b.staged.map fun _ data => data.stamped b.baseSequence n)[key]? = some data at hdata
  rw [Std.ExtTreeMap.getElem?_map] at hdata
  obtain ⟨data', hdata', rfl⟩ := Option.map_eq_some_iff.mp hdata
  exact (h key data' hdata').stamped _ _

theorem Prepared.Rebound.ordered {env : Env} {root : Checkpoint} {b b' : Prepared}
    (h : b.Rebound env root b') (hb : b.Ordered) : b'.Ordered := by
  intro key data' hdata'
  have hrel := h.sameEntities key
  rw [hdata'] at hrel
  generalize hdata : b.staged[key]? = found at hrel
  cases hrel with
  | some hkept => exact hkept.ordered (hb key _ hdata)

end EveDB.Store
