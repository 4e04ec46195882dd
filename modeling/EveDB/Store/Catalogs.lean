import EveDB.Store.GroupCommit

/-!
# The catalog of a batch

A transaction begins with the catalog of its view, and only an operation that defines a table
changes it; no table is ever taken away. So a batch that defines no table has the catalog of its
view (`Prepared.HandedOver.catalog`).

In a group that has passed validation the batches in front of the last one define none, since a
batch that begins in front of such a definition is refused. So what a group leaves of the catalog
is what its last batch has of it (`Ready.catalog`).
-/

namespace EveDB.Store

open Std Fallible

/-- A change keeps all tables there are. -/
theorem subset_change {catalog catalog' : Catalog} {t : Table}
    (h : catalog.change t = .ok catalog') : ∀ table ∈ catalog, table ∈ catalog' := by
  intro table htable
  obtain ⟨_, -, h⟩ := bind_eq_ok.mp h
  cases h
  exact ExtTreeMap.mem_insert.mpr (Or.inr htable)

/-! ### What goes along with a transaction -/

/-- **A relation that goes along with a transaction**, from one moment to any later one: it
composes, and it is what every operation does, whether it succeeds or not. -/
structure Staging.Along (env : Env) (R : Staging → Staging → Prop) : Prop where
  trans : ∀ a b c, R a b → R b c → R a c
  same : ∀ s s', s.Same s' → s'.operations = s.operations → R s s'
  run : ∀ operation, Keeps R (Staging.run env operation)

namespace Staging.Along

variable {env : Env} {R : Staging → Staging → Prop}

theorem refl (h : Along env R) (s : Staging) : R s s := h.same s s (.refl s) rfl

theorem maintain (h : Along env R) (table id : ℕ) : Keeps R (maintain env table id) := by
  refine (Keeps.of_get h.refl).bind h.trans fun s => ?_
  refine Keeps.bind h.trans ?_ fun _ => ?_
  · split
    · exact h.run _
    · exact .pure h.refl _
  · split
    · exact h.run _
    · exact .pure h.refl _

/-- A call does nothing else. -/
theorem stage (h : Along env R) (call : Call) : Keeps R (call.stage env) := by
  have hfailed (s : Staging) : R s { s with failed := true } :=
    h.same _ _ ⟨rfl, rfl, rfl, rfl, rfl⟩ rfl
  cases call with
  | createTable name schema =>
    intro s
    rw [Call.stage_createTable]
    split
    · exact h.run _ s
    · exact h.refl s
  | renameTable id name =>
    intro s
    rw [Call.stage_renameTable]
    split
    · exact h.run _ s
    · exact hfailed s
  | alterTable id fields =>
    intro s
    rw [Call.stage_alterTable]
    split
    · split
      · exact h.run _ s
      · exact h.refl s
    · exact hfailed s
  | create table id fields | retainLast table id count | snapshot table id => exact h.run _
  | apply table id fields | delete table id =>
    exact (h.run _).bind h.trans fun _ => h.maintain table id

/-- Nor does a step on a lease, as long as it lasts. -/
theorem «with» (h : Along env R) {α : Type} {stage : Stage α} (hstage : Keeps R stage)
    {t t' : Transaction} {r : Result α} {s₀ : Staging} (ht : ∀ s, t.value = some s → R s₀ s)
    (hwith : (Transaction.«with» env stage).run t = (r, t')) : ∀ s, t'.value = some s → R s₀ s := by
  intro s hs
  rcases Transaction.with_cases hwith with ⟨-, hnone⟩ | ⟨s₁, s₂, ticks, hs₁, hrun, -, hvalue⟩
  · rw [hnone] at hs
    cases hs
  · rw [hvalue] at hs
    cases hs
    refine h.trans _ _ _ (ht s₁ hs₁) ?_
    refine h.trans _ _ _ (h.same s₁ s₁.looked ⟨rfl, rfl, rfl, rfl, rfl⟩ rfl) ?_
    exact h.trans _ _ _ (hstage.of_run hrun) (h.same s₂ _ ⟨rfl, rfl, rfl, rfl, rfl⟩ rfl)

/-- **Nor does a run of calls.** -/
theorem performAll (h : Along env R) {calls : List Call} {t t' : Transaction}
    {results : List (Result Unit)} {s₀ : Staging} (ht : ∀ s, t.value = some s → R s₀ s)
    (hcalls : Call.performAll env calls t = (results, t')) :
    ∀ s, t'.value = some s → R s₀ s := by
  induction calls generalizing t results with
  | nil =>
    cases hcalls
    exact ht
  | cons call calls ih =>
    rcases hcall : (call.perform env).run t with ⟨r, t₁⟩
    rcases hrest : Call.performAll env calls t₁ with ⟨rs, t₂⟩
    rw [Call.performAll, hcall] at hcalls
    dsimp only at hcalls
    rw [hrest] at hcalls
    cases hcalls
    exact ih (h.with (h.stage call) ht hcall) hrest

end Staging.Along

/-- **A batch that is handed over** is what has come of a new transaction. -/
theorem Prepared.HandedOver.along {view : ReadState} {b : Prepared} (h : b.HandedOver view)
    {R : Staging → Staging → Prop} (hR : ∀ env, Staging.Along env R) :
    ∃ s₀ s deadline, s₀.base = view ∧ s₀.catalog = view.catalog ∧ s₀.staged = ∅ ∧
      s₀.operations = [] ∧ R s₀ s ∧ b = s.prepare (some deadline) := by
  obtain ⟨env, options, requested, tick, calls, results, t, t', s, deadline, ht, hcalls, htake, -,
    rfl⟩ := h
  obtain ⟨s₀, hs₀, hvalue⟩ := Transaction.new_value ht
  obtain ⟨s₁, hvalue', rfl⟩ := Transaction.take_value htake
  obtain ⟨_, -, hs₀⟩ := bind_eq_ok.mp hs₀
  have hstart : ∀ s, t.value = some s → R s₀.looked s := by
    intro s hs
    rw [hvalue] at hs
    cases hs
    exact (hR env).refl _
  have halong := (hR env).performAll hstart hcalls s₁ hvalue'
  cases hs₀
  exact ⟨_, _, deadline, rfl, rfl, rfl, rfl, (hR env).trans _ _ _ halong
    ((hR env).same _ _ ⟨rfl, rfl, rfl, rfl, rfl⟩ rfl), rfl⟩

/-! ### Staging -/

namespace Staging

/-- **What a transaction does to its catalog**: it keeps all tables, and has recorded a definition
if it has changed any. -/
structure Defines (s s' : Staging) : Prop where
  subset : ∀ table ∈ s.catalog, table ∈ s'.catalog
  recorded : ∃ more, s'.operations = s.operations ++ more ∧
    ((∀ operation ∈ more, operation.entityKey.isNone = false) → s'.catalog = s.catalog)
  base : s'.base = s.base

namespace Defines

theorem trans (a b c : Staging) (h : Defines a b) (h' : Defines b c) : Defines a c := by
  obtain ⟨more, heq, hsame⟩ := h.recorded
  obtain ⟨more', heq', hsame'⟩ := h'.recorded
  refine ⟨fun table htable => h'.subset table (h.subset table htable), ⟨more ++ more', ?_, ?_⟩,
    h'.base.trans h.base⟩
  · rw [heq', heq, List.append_assoc]
  · intro hmore
    obtain ⟨hmore, hmore'⟩ := List.forall_mem_append.mp hmore
    exact (hsame' hmore').trans (hsame hmore)

/-- What does not touch the catalog and the record defines nothing. -/
theorem of_eq {s s' : Staging} (hcatalog : s'.catalog = s.catalog)
    (hoperations : s'.operations = s.operations) (hbase : s'.base = s.base) : Defines s s' :=
  ⟨fun _ h => hcatalog ▸ h, ⟨[], by rw [hoperations, List.append_nil], fun _ => hcatalog⟩, hbase⟩

end Defines

variable (env : Env)

/-- Charging an operation does not record it. -/
theorem charge_records (operation : Operation) :
    Keeps (fun s s' => s'.operations = s.operations) (charge env operation) := by
  have htrans (a b c : Staging) (h : b.operations = a.operations)
    (h' : c.operations = b.operations) :
      c.operations = a.operations := h'.trans h
  have hcharged {α : Type} {x : Stage α} (h : Keeps Charged x) :
      Keeps (fun s s' => s'.operations = s.operations) x :=
    h.mono fun s s' hss' => by
      obtain ⟨-, -, -, -, -, -, hoperations, -⟩ := hss'.spec
      exact hoperations
  have hrecover (bytes : ℕ) : Keeps (fun s s' : Staging => s'.operations = s.operations)
      (recover bytes) := .of_modify fun _ => rfl
  refine (hcharged (cost_keeps operation)).bind htrans fun bytes => ?_
  refine (hcharged (growDecoded_keeps env bytes)).bind htrans fun _ => ?_
  refine (Keeps.of_get (P := fun s s' : Staging => s'.operations = s.operations)
    fun _ => rfl).bind htrans fun s => ?_
  split
  · refine (Keeps.lift (P := fun s s' : Staging => s'.operations = s.operations)
      (fun _ => rfl) _).bind htrans fun _ => ?_
    refine (hcharged tick_keeps).bind htrans fun i => ?_
    exact (Keeps.lift (P := fun s s' : Staging => s'.operations = s.operations)
      (fun _ => rfl) _).bind htrans fun _ => hrecover _
  · exact hrecover _

/-- Nor is one that does not run. -/
theorem run_operations_error {operation : Operation} {s s' : Staging} {e : Error}
    (h : (run env operation).run s = (.error e, s')) : s'.operations = s.operations := by
  obtain ⟨-, -, rfl⟩ | ⟨-, -, rfl⟩ | ⟨-, _, t, hattempt, -, rfl⟩ | ⟨-, -, _, -, hr, -⟩ :=
    run_cases env h
  · rfl
  · rfl
  · change t.operations = s.looked.operations
    have hrecords := charge_records env operation s.looked
    rw [attempt, run_bind] at hattempt
    rcases hcharge : (charge env operation).run s.looked with ⟨e' | _, s₁⟩
    · rw [hcharge] at hattempt hrecords
      cases hattempt
      exact hrecords
    · rw [hcharge] at hattempt hrecords
      obtain ⟨-, -, -, -, hoperations, -⟩ := ((execute_keeps env operation).of_run hattempt).spec
      exact hoperations.trans hrecords
  · cases hr

/-- **An operation that runs** defines a table, or leaves the catalog alone. -/
theorem run_defines (operation : Operation) : Keeps Defines (run env operation) := by
  intro s
  rcases hrun : (run env operation).run s with ⟨r, s'⟩
  obtain ⟨⟨hbase, -, -⟩, hcases⟩ := run_stages hrun
  rcases hcases with ⟨rfl, hstages⟩ | ⟨⟨e, rfl⟩, hcatalog, -⟩
  · have hrecorded := run_operations env hrun
    generalize hstaged : s'.staged = staged at hstages
    generalize hcatalog : s'.catalog = catalog at hstages
    cases hstages with
    | change hoperation hchange =>
      refine ⟨fun table htable => ?_, ⟨[operation], hrecorded, fun hmore => ?_⟩, hbase⟩
      · rw [hcatalog]
        exact subset_change hchange table htable
      · have hentity := hmore operation (List.mem_singleton_self _)
        rw [hoperation] at hentity
        cases hentity
    | edit =>
      exact ⟨fun table htable => hcatalog ▸ htable, ⟨[operation], hrecorded, fun _ => hcatalog⟩,
        hbase⟩
  · exact .of_eq hcatalog (run_operations_error env hrun) hbase

/-- **So does a transaction**, from its beginning on. -/
theorem defines_along : Along env Defines :=
  ⟨Defines.trans, fun _ _ hsame hoperations => .of_eq hsame.catalog hoperations hsame.base,
    run_defines env⟩

end Staging

/-- **The catalog of a batch** has all tables of its view; and if the batch defines none, the two
are the same. Its base is the sequence of the view. -/
theorem Prepared.HandedOver.catalog {view : ReadState} {b : Prepared} (h : b.HandedOver view) :
    (∀ table ∈ view.catalog, table ∈ b.catalog) ∧
      (b.changesCatalog = false → b.catalog = view.catalog) ∧ b.baseSequence = view.lsn := by
  obtain ⟨s₀, s, deadline, hs₀, hcatalog, -, hoperations, hdefines, rfl⟩ :=
    h.along Staging.defines_along
  obtain ⟨hsubset, ⟨more, hmore, hsame⟩, hbase⟩ := hdefines
  rw [hcatalog] at hsubset hsame
  refine ⟨hsubset, fun hchanges => hsame fun operation hoperation => ?_,
    congrArg ReadState.lsn (hbase.trans hs₀)⟩
  refine Bool.eq_false_iff.mpr fun hnone => Bool.eq_false_iff.mp hchanges ?_
  refine List.any_eq_true.mpr ⟨operation, ?_, hnone⟩
  change operation ∈ s.operations
  rw [hmore, hoperations, List.nil_append]
  exact hoperation

/-! ### Groups -/

/-- A batch without operations defines no table. -/
theorem Prepared.changesCatalog_of_isEmpty {b : Prepared} (h : b.isEmpty = true) :
    b.changesCatalog = false := by
  rw [changesCatalog, List.isEmpty_iff.mp h]
  rfl

section Groups

variable {env : Env} {root : Checkpoint}

/-- **The catalog behind a group** whose batches, all but the last one, define no table. -/
theorem Ready.catalog {tick lsn : ℕ} {ps : List (Prepared × ℕ)} {qs : List (Prepared × Bytes)}
    (h : Ready env root tick lsn ps qs) {db : Database}
    (hsubset : ∀ p ∈ ps, ∀ table ∈ db.state.catalog, table ∈ p.1.catalog)
    (hsame : ∀ p ∈ ps, p.1.changesCatalog = false → p.1.catalog = db.state.catalog)
    (hlast : ps.Pairwise fun p _ => p.1.changesCatalog = false) :
    (∀ table ∈ db.state.catalog, table ∈ (publishEach (qs.map Prod.fst) db).state.catalog) ∧
      ((∀ p ∈ ps, p.1.changesCatalog = false) →
        (publishEach (qs.map Prod.fst) db).state.catalog = db.state.catalog) := by
  induction h generalizing db with
  | nil => exact ⟨fun _ h => h, fun _ => rfl⟩
  | @cons lsn b b' frame ps qs hne hbase hawake hmax hframe hrebound rest ih =>
    obtain ⟨hhead, hlast⟩ := List.pairwise_cons.mp hlast
    obtain ⟨hsubset₀, hsubset⟩ := List.forall_mem_cons.mp hsubset
    obtain ⟨hsame₀, hsame⟩ := List.forall_mem_cons.mp hsame
    set db₁ := (b'.restamp (db.state.lsn + 1)).publishState (db.state.lsn + 1) db with hdb₁
    have hcatalog : db₁.state.catalog = b.catalog := hrebound.spec.2.catalog
    change (∀ table ∈ db.state.catalog, table ∈ (publishEach (qs.map Prod.fst) db₁).state.catalog) ∧
      ((∀ p ∈ (b, lsn + 1) :: ps, p.1.changesCatalog = false) →
        (publishEach (qs.map Prod.fst) db₁).state.catalog = db.state.catalog)
    cases rest with
    | nil =>
      refine ⟨fun table htable => ?_, fun hnone => ?_⟩
      · exact hcatalog ▸ hsubset₀ table htable
      · exact hcatalog.trans (hsame₀ (hnone _ List.mem_cons_self))
    | @cons _ b₂ b₂' frame₂ ps qs hne₂ hbase₂ hawake₂ hmax₂ hframe₂ hrebound₂ rest =>
      -- something comes behind the first batch, so it defines nothing
      have heq : db₁.state.catalog = db.state.catalog :=
        hcatalog.trans (hsame₀ (hhead _ List.mem_cons_self))
      obtain ⟨hkept, hequal⟩ := @ih db₁ (by rwa [heq]) (by rwa [heq]) hlast
      rw [heq] at hkept hequal
      exact ⟨hkept, fun hnone => hequal fun p hp => hnone p (List.mem_cons_of_mem _ hp)⟩

/-- What publishing a group leaves alone, and how far it goes. -/
theorem Ready.publishEach_spec {tick lsn : ℕ} {ps : List (Prepared × ℕ)}
    {qs : List (Prepared × Bytes)} (h : Ready env root tick lsn ps qs) {db : Database}
    (hlsn : db.state.lsn = lsn) :
    (publishEach (qs.map Prod.fst) db).state.root = db.state.root ∧
      (publishEach (qs.map Prod.fst) db).state.lsn = db.state.lsn + ps.length ∧
      (publishEach (qs.map Prod.fst) db).options = db.options ∧
      (db.state.lsn ≤ maxU64 → (publishEach (qs.map Prod.fst) db).state.lsn ≤ maxU64) := by
  induction h generalizing db with
  | nil => exact ⟨rfl, rfl, rfl, fun h => h⟩
  | @cons lsn b b' frame ps qs hne hbase hawake hmax hframe hrebound rest ih =>
    obtain ⟨hroot, hlength, hoptions, hle⟩ :=
      @ih ((b'.restamp (db.state.lsn + 1)).publishState (db.state.lsn + 1) db)
        (congrArg (· + 1) hlsn)
    refine ⟨hroot, ?_, hoptions, fun _ => hle ?_⟩
    · rw [List.map_cons, publishEach, hlength, List.length_cons]
      change db.state.lsn + 1 + ps.length = _
      omega
    · change db.state.lsn + 1 ≤ maxU64
      rw [hlsn]
      exact hmax

/-- The sequences a group gets lie behind the last one. -/
theorem Ready.sequence_mem {tick lsn : ℕ} {ps : List (Prepared × ℕ)} {qs : List (Prepared × Bytes)}
    (h : Ready env root tick lsn ps qs) : ∀ p ∈ ps, lsn < p.2 ∧ p.2 ≤ lsn + ps.length := by
  induction h with
  | nil => exact List.forall_mem_nil _
  | @cons lsn b b' frame ps qs hne hbase hawake hmax hframe hrebound rest ih =>
    refine List.forall_mem_cons.mpr ⟨⟨Nat.lt_succ_self lsn, ?_⟩, fun p hp => ?_⟩
    · rw [List.length_cons]
      omega
    · obtain ⟨hlt, hle⟩ := ih p hp
      rw [List.length_cons]
      exact ⟨by omega, by omega⟩

end Groups

end EveDB.Store
