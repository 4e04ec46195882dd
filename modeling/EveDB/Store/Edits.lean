import EveDB.Store.Aborted

/-!
# What an operation stages

The inversion lemma of `Staging.run`: an operation that fails leaves what has been staged as it
was, but for an entity it may have loaded (`Staging.Loads`); one that succeeds has changed the
catalog, or has made one entity out of another (`Staging.Edits`). Every invariant of what a
transaction has staged is derived from that, and from there goes through the calls of a
transaction (`Call.performAll_keeps`).
-/

namespace EveDB.Store

open Fallible

namespace Staging

/-- The staged entities when the one under a key has been loaded. -/
inductive Loads (s : Staging) (key : ℕ × ℕ) : SortedMap (ℕ × ℕ) EntityData → Prop
  | kept : Loads s key s.staged
  | loaded {data : EntityData} (hnew : key ∉ s.staged)
      (hdata : (s.base.loadCharged true key.1 key.2).result = .ok (some data)) :
      Loads s key (s.staged.insert key data)

/-- An entity that has just been created. -/
def created (id version : ℕ) (fields : Fields) : EntityData :=
  let current : Entity := { id, version := 0, schemaVersion := version, deleted := false, fields }
  { current, base := current, events := [], committed := ∅, snapshots := ∅, disk := none }

/-- **What an operation makes of an entity.** -/
inductive Edits (s : Staging) (staged : SortedMap (ℕ × ℕ) EntityData) (table : Table) :
    Operation → EntityData → Prop
  | create {t id : ℕ} {fields row : Fields} {schema : Schema} (hnew : (t, id) ∉ staged)
      (hschema : latest table = .ok schema) (hrow : schema.normalize fields true = .ok row)
      (hsize : s.permit = true → checkCreated s.options.limits row = .ok ()) :
      Edits s staged table (.create t id fields) (created id schema.version row)
  | apply {t id : ℕ} {fields changes : Fields} {schema : Schema} {data : EntityData}
      {event : Event} {current : Entity} (hdata : staged[(t, id)]? = some data)
      (hschema : latest table = .ok schema)
      (hchanges : schema.normalize fields false = .ok changes)
      (hsize : s.permit = true →
        checkApplied s.options.limits data.current.fields changes = .ok ())
      (hevent : nextEvent s.base schema id data.current .apply changes = .ok event)
      (hcurrent : applyEvent data.current event table = .ok current) :
      Edits s staged table (.apply t id fields)
        { data with current, events := data.events ++ [event] }
  | delete {t id : ℕ} {schema : Schema} {data : EntityData} {event : Event} {current : Entity}
      (hdata : staged[(t, id)]? = some data) (hschema : latest table = .ok schema)
      (hevent : nextEvent s.base schema id data.current .delete ∅ = .ok event)
      (hcurrent : applyEvent data.current event table = .ok current) :
      Edits s staged table (.delete t id) { data with current, events := data.events ++ [event] }
  | retain {t id count : ℕ} {data data' : EntityData} (hdata : staged[(t, id)]? = some data)
      (hretain : (data.retain table count).result = .ok data') :
      Edits s staged table (.retain t id count) data'
  | snapshot {t id : ℕ} {data : EntityData} (hdata : staged[(t, id)]? = some data) :
      Edits s staged table (.snapshot t id)
        { data with snapshots := data.snapshots.insert data.current.version data.current }

/-- **What an operation that succeeds has staged.** -/
inductive Stages (s : Staging) (operation : Operation) :
    Catalog → SortedMap (ℕ × ℕ) EntityData → Prop
  | change {t : Table} {catalog : Catalog} (hoperation : operation = .table t)
      (hchange : s.catalog.change t = .ok catalog) : Stages s operation catalog s.staged
  | edit {key : ℕ × ℕ} {table : Table} {staged : SortedMap (ℕ × ℕ) EntityData} {data : EntityData}
      (hkey : operation.entityKey = some key) (htable : s.catalog.table key.1 = .ok table)
      (hload : s.Loads key staged) (hedit : s.Edits staged table operation data) :
      Stages s operation s.catalog (staged.insert key data)

/-- The transaction has staged something else. -/
def staging (s : Staging) (staged : SortedMap (ℕ × ℕ) EntityData) : Staging := { s with staged }

variable (env : Env)

/-! ### Executing an operation on an entity -/

section Execute

variable {s : Staging} {staged : SortedMap (ℕ × ℕ) EntityData}

/-- What a charged transaction has of the one it was. -/
theorem staging_spec {t : Staging} (h : Charged (s.staging staged) t) :
    t.base = s.base ∧ t.options = s.options ∧ t.permit = s.permit ∧ t.catalog = s.catalog ∧
      t.staged = staged := by
  obtain ⟨hbase, hoptions, hpermit, -, hcatalog, hstaged, -, -⟩ := h.spec
  exact ⟨hbase, hoptions, hpermit, hcatalog, hstaged⟩

theorem put_leads (key : ℕ × ℕ) (data : EntityData) {e : Staging → Prop} :
    Leads (Charged (s.staging staged)) (put key data)
      (fun _ t => Charged (s.staging (staged.insert key data)) t) e := by
  refine Leads.of_modify fun t ht => ?_
  obtain ⟨decoded, ticks, hle, rfl⟩ := ht
  exact ⟨decoded, ticks, hle, rfl⟩

theorem table_leads (id : ℕ) :
    Leads (Charged s) (table id) (fun t u => s.catalog.table id = .ok t ∧ Charged s u)
      (Charged s) := by
  refine Leads.get_bind fun u hu => ?_
  rw [hu.spec.2.2.2.2.1]
  exact .lift (fun _ _ htable ht => ⟨htable, ht⟩) fun _ h => h

theorem data_leads (key : ℕ × ℕ) :
    Leads (Charged (s.staging staged)) (data key)
      (fun data t => staged[key]? = some data ∧ Charged (s.staging staged) t)
      (Charged (s.staging staged)) := by
  refine Leads.get_bind fun t ht => ?_
  cases hdata : t.staged[key]? with
  | none => exact .lift (by rintro _ _ ⟨⟩) fun _ h => h
  | some data =>
    refine .pure fun t' ht' => ⟨?_, ht'⟩
    rw [← (staging_spec ht).2.2.2.2, hdata]

theorem chargeStaged_leads (key : ℕ × ℕ) :
    Leads (Charged (s.staging staged)) (chargeStaged env key)
      (fun _ => Charged (s.staging staged)) (Charged (s.staging staged)) :=
  .of_keeps (chargeStaged_keeps env key) (fun _ _ _ => Charged.trans _ _ _)
    (fun _ _ => Charged.trans _ _ _)

/-- What storage returns to a transaction. -/
theorem read_leads {α : Type} (reading : Reading α) :
    Leads (Charged (s.staging staged)) (read env reading)
      (fun a t => reading.result = .ok a ∧ Charged (s.staging staged) t)
      (Charged (s.staging staged)) := by
  refine fun t ht => ⟨fun a t' hrun => ⟨Guarded.result_of_run hrun, ?_⟩, fun _ t' hrun => ?_⟩
  · exact Charged.trans _ _ _ ht ((read_keeps env reading).of_run hrun)
  · exact Charged.trans _ _ _ ht ((read_keeps env reading).of_run hrun)

/-- **Adding an event** takes the current state through it. -/
theorem addEvent_leads {table : Table} {key : ℕ × ℕ} {kind : EventKind} {fields : Fields}
    {q : Staging → Prop}
    (h : ∀ data schema event current, staged[key]? = some data → latest table = .ok schema →
      nextEvent s.base schema key.2 data.current kind fields = .ok event →
      applyEvent data.current event table = .ok current →
      ∀ t, Charged (s.staging (staged.insert key
        { data with current, events := data.events ++ [event] })) t → q t) :
    Leads (Charged (s.staging staged)) (addEvent table key kind fields) (fun _ => q)
      (Charged (s.staging staged)) := by
  refine (data_leads key).bind_of fun data hdata => ?_
  refine Leads.lift_bind (fun _ h => h) fun schema hschema => ?_
  refine Leads.get_bind fun t ht => ?_
  refine Leads.lift_bind (fun _ h => h) fun event hevent => ?_
  refine Leads.lift_bind (fun _ h => h) fun current hcurrent => ?_
  rw [(staging_spec ht).1] at hevent
  exact (put_leads key _).mono fun _ => h data schema event current hdata hschema hevent hcurrent

/-- **What executing an operation on an entity comes to.** -/
theorem executeOn_leads {table : Table} {key : ℕ × ℕ} {operation : Operation}
    (hkey : operation.entityKey = some key) :
    Leads (Charged (s.staging staged)) (executeOn env table key operation)
      (fun _ t => ∃ data, s.Edits staged table operation data ∧
        Charged (s.staging (staged.insert key data)) t)
      (Charged (s.staging staged)) := by
  cases operation with
  | table t => cases hkey
  | create t id fields =>
    cases hkey
    refine Leads.get_bind fun u hu => ?_
    obtain ⟨-, hoptions, hpermit, -, hstaged⟩ := staging_spec hu
    split
    · exact .lift (by rintro _ _ ⟨⟩) fun _ h => h
    · next hnew =>
      refine Leads.lift_bind (fun _ h => h) fun schema hschema => ?_
      refine Leads.lift_bind (fun _ h => h) fun row hrow => ?_
      refine Leads.lift_bind (fun _ h => h) fun _ hsize => ?_
      rw [hpermit, hoptions] at hsize
      rw [hstaged] at hnew
      exact (put_leads _ _).mono fun _ t ht =>
        ⟨_, .create hnew hschema hrow (fun h => by rwa [if_pos h] at hsize), ht⟩
  | apply t id fields =>
    cases hkey
    refine (data_leads (t, id)).bind_of fun data hdata => ?_
    split
    · exact .lift (by rintro _ _ ⟨⟩) fun _ h => h
    · refine Leads.lift_bind (fun _ h => h) fun schema hschema => ?_
      refine Leads.lift_bind (fun _ h => h) fun changes hchanges => ?_
      refine Leads.get_bind fun u hu => ?_
      obtain ⟨-, hoptions, hpermit, -, -⟩ := staging_spec hu
      refine Leads.lift_bind (fun _ h => h) fun _ hsize => ?_
      rw [hpermit, hoptions] at hsize
      refine addEvent_leads fun data' schema' event current hdata' hschema' hevent hcurrent t ht =>
        ⟨_, ?_, ht⟩
      rw [hdata] at hdata'
      rw [hschema] at hschema'
      cases hdata'
      cases hschema'
      exact .apply hdata hschema hchanges (fun h => by rwa [if_pos h] at hsize) hevent hcurrent
  | delete t id =>
    cases hkey
    exact addEvent_leads fun data schema event current hdata hschema hevent hcurrent t ht =>
      ⟨_, .delete hdata hschema hevent hcurrent, ht⟩
  | retain t id count =>
    cases hkey
    refine (chargeStaged_leads env _).bind fun _ => ?_
    refine (data_leads (t, id)).bind_of fun data hdata => ?_
    refine (read_leads env _).bind_of fun data' hretain => ?_
    exact (put_leads _ _).mono fun _ t ht => ⟨_, .retain hdata hretain, ht⟩
  | snapshot t id =>
    cases hkey
    refine (chargeStaged_leads env _).bind fun _ => ?_
    refine (data_leads (t, id)).bind_of fun data hdata => ?_
    exact (put_leads _ _).mono fun _ t ht => ⟨_, .snapshot hdata, ht⟩

end Execute

/-! ### Running an operation -/

/-- The transaction from which nothing has been staged since. -/
theorem charged_staging {s t : Staging} : Charged (s.staging s.staged) t ↔ Charged s t := Iff.rfl

/-- **Loading an entity** stages it, or nothing. -/
theorem loadStaged_leads {s : Staging} (key : ℕ × ℕ) :
    Leads (Charged s) (loadStaged env key)
      (fun _ t => ∃ staged, s.Loads key staged ∧ Charged (s.staging staged) t)
      (fun t => ∃ staged, s.Loads key staged ∧ Charged (s.staging staged) t) := by
  have hkept (t : Staging) (ht : Charged s t) :
      ∃ staged, s.Loads key staged ∧ Charged (s.staging staged) t := ⟨_, .kept, ht⟩
  refine Leads.get_bind fun u hu => ?_
  obtain ⟨hbase, -, -, -, hstaged⟩ := staging_spec (charged_staging.mpr hu)
  split
  · next hnew =>
    rw [hstaged] at hnew
    rw [hbase]
    intro t ht
    obtain ⟨hok, herror⟩ := read_leads env (s.base.loadCharged true key.1 key.2) t
      (charged_staging.mpr ht)
    rw [run_bind]
    rcases hrun : (read env (s.base.loadCharged true key.1 key.2)).run t with ⟨err | found, t'⟩
    · refine ⟨by rintro _ _ ⟨⟩, ?_⟩
      rintro _ _ ⟨⟩
      exact hkept _ (herror _ _ hrun)
    · obtain ⟨hdata, ht'⟩ := hok _ _ hrun
      refine ⟨?_, ?_⟩
      · intro a t'' hput
        cases found with
        | none =>
          cases hput
          exact hkept _ ht'
        | some data =>
          exact ⟨_, .loaded (fun hmem => hnew.1 hmem) hdata,
            (put_leads key data (e := fun _ => False) _ ht').1 a t'' hput⟩
      · intro err t'' hput
        cases found <;> cases hput
  · exact .pure hkept

/-- **What executing an operation comes to.** -/
theorem execute_leads {s : Staging} (operation : Operation) :
    Leads (Charged s) (execute env operation)
      (fun _ t => ∃ catalog staged, s.Stages operation catalog staged ∧
        Charged { s with catalog, staged } t)
      (fun t => ∃ staged, (staged = s.staged ∨
        ∃ key, operation.entityKey = some key ∧ s.Loads key staged) ∧
          Charged (s.staging staged) t) := by
  have hkept (t : Staging) (ht : Charged s t) : ∃ staged, (staged = s.staged ∨
      ∃ key, operation.entityKey = some key ∧ s.Loads key staged) ∧
        Charged (s.staging staged) t := ⟨_, Or.inl rfl, ht⟩
  rcases execute_eq env operation with ⟨t, rfl⟩ | ⟨key, hkey, heq⟩
  · refine Leads.get_bind fun u hu => ?_
    obtain ⟨-, -, -, hcatalog, -⟩ := staging_spec (charged_staging.mpr hu)
    refine Leads.lift_bind hkept fun catalog hchange => ?_
    rw [hcatalog] at hchange
    refine Leads.of_modify fun u hu => ⟨catalog, _, .change rfl hchange, ?_⟩
    obtain ⟨decoded, ticks, hle, rfl⟩ := hu
    exact ⟨decoded, ticks, hle, rfl⟩
  · rw [heq]
    refine ((table_leads key.1).mono_error hkept).bind_of fun table htable => ?_
    have hload (t : Staging) (ht : ∃ staged, s.Loads key staged ∧ Charged (s.staging staged) t) :
        ∃ staged, (staged = s.staged ∨ ∃ key, operation.entityKey = some key ∧
          s.Loads key staged) ∧ Charged (s.staging staged) t := by
      obtain ⟨staged, hloads, ht⟩ := ht
      exact ⟨staged, Or.inr ⟨key, hkey, hloads⟩, ht⟩
    refine ((loadStaged_leads env key).mono_error hload).bind fun _ => ?_
    refine .of_exists fun staged => .of_and fun hloads => ?_
    refine ((executeOn_leads env hkey).mono_error fun t ht => ?_).mono ?_
    · exact ⟨staged, Or.inr ⟨key, hkey, hloads⟩, ht⟩
    · rintro _ t ⟨data, hedit, ht⟩
      exact ⟨_, _, .edit hkey htable hloads hedit, ht⟩

/-- Nothing that an operation depends on has changed. -/
structure Same (s s' : Staging) : Prop where
  base : s'.base = s.base
  options : s'.options = s.options
  permit : s'.permit = s.permit
  catalog : s'.catalog = s.catalog
  staged : s'.staged = s.staged

namespace Same

theorem refl (s : Staging) : Same s s := ⟨rfl, rfl, rfl, rfl, rfl⟩

theorem trans (a b c : Staging) (h : Same a b) (h' : Same b c) : Same a c :=
  ⟨h'.base.trans h.base, h'.options.trans h.options, h'.permit.trans h.permit,
    h'.catalog.trans h.catalog, h'.staged.trans h.staged⟩

theorem of_charged (s s' : Staging) (h : Charged s s') : Same s s' := by
  obtain ⟨hbase, hoptions, hpermit, hcatalog, hstaged⟩ := staging_spec (charged_staging.mpr h)
  exact ⟨hbase, hoptions, hpermit, hcatalog, hstaged⟩

variable {s s' : Staging}

theorem loads (h : Same s s') {key : ℕ × ℕ} {staged : SortedMap (ℕ × ℕ) EntityData}
    (hloads : s'.Loads key staged) : s.Loads key staged := by
  obtain ⟨base, options, permit, _, catalog, staged₀, _, _, _⟩ := s
  obtain ⟨rfl, rfl, rfl, rfl, rfl⟩ := h
  cases hloads with
  | kept => exact .kept
  | loaded hnew hdata => exact .loaded hnew hdata

theorem edits (h : Same s s') {staged : SortedMap (ℕ × ℕ) EntityData} {table : Table}
    {operation : Operation} {data : EntityData} (hedits : s'.Edits staged table operation data) :
    s.Edits staged table operation data := by
  obtain ⟨base, options, permit, _, catalog, staged₀, _, _, _⟩ := s
  obtain ⟨rfl, rfl, rfl, rfl, rfl⟩ := h
  cases hedits with
  | create hnew hschema hrow hsize => exact .create hnew hschema hrow hsize
  | apply hdata hschema hchanges hsize hevent hcurrent =>
    exact .apply hdata hschema hchanges hsize hevent hcurrent
  | delete hdata hschema hevent hcurrent => exact .delete hdata hschema hevent hcurrent
  | retain hdata hretain => exact .retain hdata hretain
  | snapshot hdata => exact .snapshot hdata

theorem stages (h : Same s s') {operation : Operation} {catalog : Catalog}
    {staged : SortedMap (ℕ × ℕ) EntityData} (hstages : s'.Stages operation catalog staged) :
    s.Stages operation catalog staged := by
  cases hstages with
  | change hoperation hchange =>
    rw [h.staged]
    rw [h.catalog] at hchange
    exact .change hoperation hchange
  | edit hkey htable hload hedit =>
    rw [h.catalog] at htable ⊢
    exact .edit hkey htable (h.loads hload) (h.edits hedit)

end Same

theorem charge_keeps (operation : Operation) : Keeps Same (charge env operation) := by
  have hcharged {α : Type} {x : Stage α} (h : Keeps Charged x) : Keeps Same x :=
    h.mono Same.of_charged
  have hrecover (bytes : ℕ) : Keeps Same (recover bytes) :=
    .of_modify fun s => ⟨rfl, rfl, rfl, rfl, rfl⟩
  refine (hcharged (cost_keeps operation)).bind Same.trans fun bytes => ?_
  refine (hcharged (growDecoded_keeps env bytes)).bind Same.trans fun _ => ?_
  refine (Keeps.of_get Same.refl).bind Same.trans fun s => ?_
  split
  · refine (Keeps.lift Same.refl _).bind Same.trans fun _ => ?_
    refine (hcharged tick_keeps).bind Same.trans fun i => ?_
    exact (Keeps.lift Same.refl _).bind Same.trans fun _ => hrecover _
  · exact hrecover _

/-- What is left of a transaction by an operation that fails. -/
def Loaded (s : Staging) (operation : Operation) (s' : Staging) : Prop :=
  s'.catalog = s.catalog ∧ (s'.staged = s.staged ∨
    ∃ key, operation.entityKey = some key ∧ s.Loads key s'.staged)

variable {env}

/-- **What running an operation comes to.** -/
theorem run_stages {operation : Operation} {s s' : Staging} {r : Result Unit}
    (h : (run env operation).run s = (r, s')) :
    (s'.base = s.base ∧ s'.options = s.options ∧ s'.permit = s.permit) ∧
      ((r = .ok () ∧ s.Stages operation s'.catalog s'.staged) ∨
        ((∃ e, r = .error e) ∧ s.Loaded operation s')) := by
  have hattempted {t : Staging} {r : Result Unit}
      (h : (attempt env operation).run s.looked = (r, t)) :
      (t.base = s.base ∧ t.options = s.options ∧ t.permit = s.permit) ∧
        (r = .ok () → s.Stages operation t.catalog t.staged) ∧
          (∀ e, r = .error e → s.Loaded operation t) := by
    rw [attempt, run_bind] at h
    rcases hcharge : (charge env operation).run s.looked with ⟨err | _, s₁⟩
    · have hsame := (charge_keeps env operation).of_run hcharge
      rw [hcharge] at h
      cases h
      exact ⟨⟨hsame.base, hsame.options, hsame.permit⟩, by rintro ⟨⟩,
        fun _ _ => ⟨hsame.catalog, Or.inl hsame.staged⟩⟩
    · have hlooked : Same s s.looked := ⟨rfl, rfl, rfl, rfl, rfl⟩
      have hsame := Same.trans _ _ _ hlooked ((charge_keeps env operation).of_run hcharge)
      rw [hcharge] at h
      obtain ⟨hbase, hoptions, hpermit, -⟩ := ((execute_keeps env operation).of_run h).spec
      obtain ⟨hok, herror⟩ := execute_leads env operation s₁ (Charged.refl s₁)
      refine ⟨⟨hbase.trans hsame.base, hoptions.trans hsame.options,
        hpermit.trans hsame.permit⟩, ?_, ?_⟩
      · rintro rfl
        obtain ⟨catalog, staged, hstages, ht⟩ := hok () t h
        obtain ⟨-, -, -, -, hcatalog, hstaged, -, -⟩ := ht.spec
        rw [hcatalog, hstaged]
        exact hsame.stages hstages
      · rintro e rfl
        obtain ⟨staged, hstaged, ht⟩ := herror e t h
        obtain ⟨-, -, -, hcatalog, heq⟩ := staging_spec ht
        refine ⟨hcatalog.trans hsame.catalog, ?_⟩
        rw [heq]
        rcases hstaged with rfl | ⟨key, hkey, hloads⟩
        · exact Or.inl hsame.staged
        · exact Or.inr ⟨key, hkey, hsame.loads hloads⟩
  obtain ⟨-, hr, rfl⟩ | ⟨-, hr, rfl⟩ | ⟨-, e, t, hattempt, hr, rfl⟩ |
    ⟨-, -, t, hattempt, hr, rfl⟩ := run_cases env h
  · exact ⟨⟨rfl, rfl, rfl⟩, Or.inr ⟨⟨_, hr⟩, rfl, Or.inl rfl⟩⟩
  · exact ⟨⟨rfl, rfl, rfl⟩, Or.inr ⟨⟨_, hr⟩, rfl, Or.inl rfl⟩⟩
  · obtain ⟨hsame, -, herror⟩ := hattempted hattempt
    exact ⟨hsame, Or.inr ⟨⟨e, hr⟩, herror e rfl⟩⟩
  · obtain ⟨hsame, hok, -⟩ := hattempted hattempt
    exact ⟨hsame, Or.inl ⟨hr, hok rfl⟩⟩

end Staging

/-! ### Calls -/

section Calls

variable {env : Env} {I : Staging → Prop}

/-- **An invariant of what is staged**: operations keep it, whether they succeed or not, and it
says nothing about the record and the clock. -/
structure Staging.Invariant (env : Env) (I : Staging → Prop) : Prop where
  same : ∀ s s', s.Same s' → I s → I s'
  run : ∀ operation s, I s → I ((Staging.run env operation).run s).2

theorem Staging.Invariant.keeps_run (h : Staging.Invariant env I) (operation : Operation) :
    Keeps (fun s s' => I s → I s') (Staging.run env operation) := fun s => h.run operation s

theorem Staging.Invariant.maintain (h : Staging.Invariant env I) (table id : ℕ) :
    Keeps (fun s s' => I s → I s') (Staging.maintain env table id) := by
  have hrefl (s : Staging) : I s → I s := fun hs => hs
  have htrans (a b c : Staging) (hab : I a → I b) (hbc : I b → I c) : I a → I c :=
    fun ha => hbc (hab ha)
  refine (Keeps.of_get hrefl).bind htrans fun s => ?_
  refine Keeps.bind htrans ?_ fun _ => ?_
  · split
    · exact h.keeps_run _
    · exact .pure hrefl _
  · split
    · exact h.keeps_run _
    · exact .pure hrefl _

/-- **Calls keep it too.** -/
theorem Staging.Invariant.stage (h : Staging.Invariant env I) (call : Call) :
    Keeps (fun s s' => I s → I s') (call.stage env) := by
  have hfailed (s : Staging) (hs : I s) : I { s with failed := true } :=
    h.same s _ ⟨rfl, rfl, rfl, rfl, rfl⟩ hs
  have htrans (a b c : Staging) (hab : I a → I b) (hbc : I b → I c) : I a → I c :=
    fun ha => hbc (hab ha)
  cases call with
  | createTable name schema =>
    intro s hs
    rw [Call.stage_createTable]
    split
    · exact h.run _ s hs
    · exact hs
  | renameTable id name =>
    intro s hs
    rw [Call.stage_renameTable]
    split
    · exact h.run _ s hs
    · exact hfailed s hs
  | alterTable id fields =>
    intro s hs
    rw [Call.stage_alterTable]
    split
    · split
      · exact h.run _ s hs
      · exact hs
    · exact hfailed s hs
  | create table id fields | retainLast table id count | snapshot table id =>
    exact h.keeps_run _
  | apply table id fields | delete table id =>
    exact (h.keeps_run _).bind htrans fun _ => h.maintain table id

/-- What keeps an invariant keeps it on a lease, as long as it lasts. -/
theorem Staging.Invariant.with (h : Staging.Invariant env I) {α : Type} {stage : Stage α}
    (hstage : Keeps (fun s s' => I s → I s') stage) {t t' : Transaction} {r : Result α}
    (ht : ∀ s, t.value = some s → I s) (hwith : (Transaction.«with» env stage).run t = (r, t')) :
    ∀ s, t'.value = some s → I s := by
  intro s hs
  rcases Transaction.with_cases hwith with ⟨-, hnone⟩ | ⟨s₀, s₁, ticks, hs₀, hrun, -, hvalue⟩
  · rw [hnone] at hs
    cases hs
  · rw [hvalue] at hs
    cases hs
    have hlooked := h.same s₀ s₀.looked ⟨rfl, rfl, rfl, rfl, rfl⟩ (ht s₀ hs₀)
    exact h.same s₁ _ ⟨rfl, rfl, rfl, rfl, rfl⟩ (hstage.of_run hrun hlooked)

/-- **So does a run of calls**, as long as the lease lasts. -/
theorem Staging.Invariant.performAll (h : Staging.Invariant env I) {calls : List Call}
    {t t' : Transaction} {results : List (Result Unit)} (ht : ∀ s, t.value = some s → I s)
    (hcalls : Call.performAll env calls t = (results, t')) : ∀ s, t'.value = some s → I s := by
  induction calls generalizing t results with
  | nil =>
    cases hcalls
    exact ht
  | cons call calls ih =>
    rcases hcall : (call.perform env).run t with ⟨r, t₁⟩
    rcases hrest : Call.performAll env calls t₁ with ⟨rs, t₂⟩
    rw [Call.performAll, hcall] at hcalls
    dsimp only at hcalls
    rw [hrest] at hcalls
    cases hcalls
    exact ih (h.with (h.stage call) ht hcall) hrest

end Calls

end EveDB.Store
