import EveDB.Store.Batches
import EveDB.Store.Commit
import EveDB.Store.Transaction

/-!
# Aborted transactions

A call that fails dooms its transaction (`Staging.Doomed`): every later call fails, and so does
the commit, which then leaves the database alone. Only two failures escape, and both of them
before anything is run: a table that would need an identifier, or a schema that would need a
version, beyond the largest number (`Call.Exhausts`). The checked additions of `createTable` and
`alterTable` return without marking the transaction failed.

As long as all calls succeed, what a transaction has staged is what its recorded operations
stage when they run again on its base view (`Staging.Replays`).
-/

namespace EveDB.Store

open Fallible

/-! ### Staging that is doomed -/

namespace Staging

variable (env : Env)

/-- **Nothing more will succeed** on what has been staged. -/
def Doomed (s : Staging) : Prop := s.failed = true ∨ env.poisoned s.ticks = true

variable {env}

/-- Time does not help. -/
theorem Doomed.later {s : Staging} (h : s.Doomed env) {ticks : ℕ} (hle : s.ticks ≤ ticks) :
    Doomed env { s with ticks } := h.imp id (env.poisoned_mono hle)

variable (env)

/-- A step whose failure dooms the transaction. -/
def Dooms {α : Type} (x : Stage α) : Prop :=
  ∀ s e s', x.run s = (.error e, s') → Doomed env s'

/-- A step that fails on a doomed transaction, and leaves it doomed. -/
def Refuses {α : Type} (x : Stage α) : Prop :=
  ∀ s, Doomed env s → ∃ e s', x.run s = (.error e, s') ∧ Doomed env s'

/-- A step that comes to running operations when it succeeds. -/
def Runs {α : Type} (x : Stage α) : Prop :=
  ∀ s a s', x.run s = (.ok a, s') → ∃ operations, (runAll env operations).run s = (.ok (), s')

variable {env}

section Steps

variable {α β : Type} {x : Stage α} {f : α → Stage β}

theorem Dooms.bind (hx : Dooms env x) (hf : ∀ a, Dooms env (f a)) : Dooms env (x >>= f) := by
  intro s e s' h
  rw [run_bind] at h
  rcases hs : x.run s with ⟨e₁ | a, s₁⟩
  · rw [hs] at h
    cases h
    exact hx _ _ _ hs
  · rw [hs] at h
    exact hf a s₁ e s' h

theorem Dooms.pure (a : α) : Dooms env (Pure.pure a : Stage α) := by
  rintro s e s' ⟨⟩

theorem Dooms.get : Dooms env (get : Stage Staging) := by
  rintro s e s' ⟨⟩

theorem Refuses.bind (hx : Refuses env x) (f : α → Stage β) : Refuses env (x >>= f) := by
  intro s hs
  obtain ⟨e, s', hrun, hs'⟩ := hx s hs
  exact ⟨e, s', by rw [run_bind, hrun], hs'⟩

theorem runAll_append (operations operations' : List Operation) (s : Staging) :
    (runAll env (operations ++ operations')).run s =
      (runAll env operations >>= fun _ => runAll env operations').run s := by
  induction operations generalizing s with
  | nil => rfl
  | cons operation operations ih =>
    change (run env operation >>= fun _ => runAll env (operations ++ operations')).run s =
      ((run env operation >>= fun _ => runAll env operations) >>= _).run s
    rw [run_bind, run_bind, run_bind]
    rcases (run env operation).run s with ⟨e | _, s'⟩
    · rfl
    · exact ih s'

theorem Runs.bind (hx : Runs env x) (hf : ∀ a, Runs env (f a)) : Runs env (x >>= f) := by
  intro s b s' h
  obtain ⟨a, s₁, hrun, hrest⟩ := run_bind_eq_ok.mp h
  obtain ⟨operations, hops⟩ := hx s a s₁ hrun
  obtain ⟨operations', hops'⟩ := hf a s₁ b s' hrest
  refine ⟨operations ++ operations', ?_⟩
  rw [runAll_append]
  exact run_bind_eq_ok.mpr ⟨(), s₁, hops, hops'⟩

theorem Runs.pure (a : α) : Runs env (Pure.pure a : Stage α) := by
  rintro s b s' ⟨⟩
  exact ⟨[], rfl⟩

theorem Runs.get : Runs env (get : Stage Staging) := by
  rintro s b s' ⟨⟩
  exact ⟨[], rfl⟩

end Steps

/-- **An operation that fails dooms its transaction.** -/
theorem run_dooms (operation : Operation) : Dooms env (run env operation) := by
  intro s e s' h
  obtain ⟨hp, -, rfl⟩ | ⟨hf, -, rfl⟩ | ⟨-, _, t, -, -, rfl⟩ | ⟨-, -, _, -, hr, -⟩ := run_cases env h
  · exact Or.inr (env.poisoned_mono (Nat.le_succ _) hp)
  · exact Or.inl hf
  · exact Or.inl rfl
  · cases hr

/-- **No operation runs on a doomed transaction.** -/
theorem run_refuses (operation : Operation) : Refuses env (run env operation) := by
  intro s hs
  rcases h : (run env operation).run s with ⟨e | _, s'⟩
  · exact ⟨e, s', rfl, run_dooms operation s e s' h⟩
  · obtain ⟨-, hr, -⟩ | ⟨-, hr, -⟩ | ⟨-, _, _, -, hr, -⟩ | ⟨hf, hp, -⟩ := run_cases env h
    · cases hr
    · cases hr
    · cases hr
    · rcases hs with hs | hs
      · rw [hs] at hf
        cases hf
      · rw [hs] at hp
        cases hp

theorem run_runs (operation : Operation) : Runs env (run env operation) := by
  intro s _ s' h
  refine ⟨[operation], ?_⟩
  exact run_bind_eq_ok.mpr ⟨(), s', h, rfl⟩

/-! ### The calls -/

theorem maintain_dooms (table id : ℕ) : Dooms env (maintain env table id) := by
  refine Dooms.get.bind fun s => Dooms.bind ?_ fun _ => ?_
  · split
    · exact run_dooms _
    · exact Dooms.pure _
  · split
    · exact run_dooms _
    · exact Dooms.pure _

theorem maintain_runs (table id : ℕ) : Runs env (maintain env table id) := by
  refine Runs.get.bind fun s => Runs.bind ?_ fun _ => ?_
  · split
    · exact run_runs _
    · exact Runs.pure _
  · split
    · exact run_runs _
    · exact Runs.pure _

end Staging

namespace Call

variable (env : Env)

/-- **The call runs out of numbers**: it would need a table identifier, or a schema version,
beyond the largest one. -/
def Exhausts (catalog : Catalog) : Call → Prop
  | .createTable _ _ => checkedAdd catalog.lastId 1 = none
  | .alterTable id _ =>
    ∃ table, catalog.table id = .ok table ∧ checkedAdd (table.schema.elim 0 Schema.version) 1 = none
  | _ => False

variable {env}

/-- Creating a table runs the operation that defines it. -/
theorem stage_createTable (name : String) (schema : Schema) (s : Staging) :
    ((createTable name schema).stage env).run s =
      match s.catalog.createTable name schema with
      | .ok table => (Staging.run env (.table table)).run s
      | .error e => (.error e, s) := by
  change ((get >>= fun s : Staging => Fallible.lift (s.catalog.createTable name schema) >>=
    fun table => Staging.run env (.table table) >>= fun _ => pure table.id : Stage ℕ) >>=
      fun _ => pure ()).run s = _
  rw [run_bind, run_bind, run_get]
  dsimp only
  rw [run_bind, run_lift]
  cases s.catalog.createTable name schema with
  | error e => rfl
  | ok table =>
    dsimp only
    rw [run_bind]
    rcases (Staging.run env (.table table)).run s with ⟨e | _, s'⟩ <;> rfl

/-- Renaming a table runs the operation that defines it anew. -/
theorem stage_renameTable (id : ℕ) (name : String) (s : Staging) :
    ((renameTable id name).stage env).run s =
      match s.catalog.table id with
      | .ok table => (Staging.run env (.table { table with name })).run s
      | .error e => (.error e, { s with failed := true }) := by
  have hwrite : (Staging.tableForWrite id).run s = match s.catalog.table id with
      | .ok table => (.ok table, s)
      | .error e => (.error e, { s with failed := true }) := rfl
  change (Staging.tableForWrite id >>= _).run s = _
  rw [run_bind, hwrite]
  cases s.catalog.table id <;> rfl

/-- So does altering it, when there is a version left. -/
theorem stage_alterTable (id : ℕ) (fields : List Field) (s : Staging) :
    ((alterTable id fields).stage env).run s =
      match s.catalog.table id with
      | .ok _ =>
        match s.catalog.alterTable id fields with
        | .ok table => (Staging.run env (.table table)).run s
        | .error e => (.error e, s)
      | .error e => (.error e, { s with failed := true }) := by
  have hwrite : (Staging.tableForWrite id).run s = match s.catalog.table id with
      | .ok table => (.ok table, s)
      | .error e => (.error e, { s with failed := true }) := rfl
  change (Staging.tableForWrite id >>= _).run s = _
  rw [run_bind, hwrite]
  cases s.catalog.table id with
  | error e => rfl
  | ok table =>
    change ((get : Stage Staging) >>= fun s => Fallible.lift (s.catalog.alterTable id fields) >>=
      fun table => Staging.run env (.table table)).run s = _
    rw [run_bind, run_get]
    dsimp only
    rw [run_bind, run_lift]
    cases s.catalog.alterTable id fields <;> rfl

/-- **A call that fails dooms its transaction**, unless it has run out of numbers. -/
theorem stage_dooms {call : Call} {s s' : Staging} {e : Error} (hspared : ¬ call.Exhausts s.catalog)
    (h : (call.stage env).run s = (.error e, s')) : s'.Doomed env := by
  cases call with
  | createTable name schema =>
    rw [stage_createTable] at h
    cases hid : checkedAdd s.catalog.lastId 1 with
    | none => exact absurd hid hspared
    | some id =>
      rw [Catalog.createTable, hid] at h
      exact Staging.run_dooms _ s e s' h
  | renameTable id name =>
    rw [stage_renameTable] at h
    split at h
    · exact Staging.run_dooms _ s e s' h
    · cases h
      exact Or.inl rfl
  | alterTable id fields =>
    rw [stage_alterTable] at h
    split at h
    · next table htable =>
      cases hversion : checkedAdd (table.schema.elim 0 Schema.version) 1 with
      | none => exact absurd ⟨table, htable, hversion⟩ hspared
      | some version =>
        rw [Catalog.alterTable, htable, ok_bind, hversion] at h
        exact Staging.run_dooms _ s e s' h
    · cases h
      exact Or.inl rfl
  | create table id fields => exact Staging.run_dooms _ s e s' h
  | apply table id fields =>
    exact (Staging.run_dooms _).bind (fun _ => Staging.maintain_dooms table id) s e s' h
  | delete table id =>
    exact (Staging.run_dooms _).bind (fun _ => Staging.maintain_dooms table id) s e s' h
  | retainLast table id count => exact Staging.run_dooms _ s e s' h
  | snapshot table id => exact Staging.run_dooms _ s e s' h

/-- **No call succeeds on a doomed transaction**, and it stays doomed. -/
theorem stage_refuses (call : Call) : Staging.Refuses env (call.stage env) := by
  intro s hs
  cases call with
  | createTable name schema =>
    rw [stage_createTable]
    split
    · exact Staging.run_refuses _ s hs
    · exact ⟨_, _, rfl, hs⟩
  | renameTable id name =>
    rw [stage_renameTable]
    split
    · exact Staging.run_refuses _ s hs
    · exact ⟨_, _, rfl, Or.inl rfl⟩
  | alterTable id fields =>
    rw [stage_alterTable]
    split
    · split
      · exact Staging.run_refuses _ s hs
      · exact ⟨_, _, rfl, hs⟩
    · exact ⟨_, _, rfl, Or.inl rfl⟩
  | create table id fields => exact Staging.run_refuses _ s hs
  | apply table id fields => exact (Staging.run_refuses _).bind _ s hs
  | delete table id => exact (Staging.run_refuses _).bind _ s hs
  | retainLast table id count => exact Staging.run_refuses _ s hs
  | snapshot table id => exact Staging.run_refuses _ s hs

/-- **A call that succeeds comes to running operations.** -/
theorem stage_runs (call : Call) : Staging.Runs env (call.stage env) := by
  intro s a s' h
  cases call with
  | createTable name schema =>
    rw [stage_createTable] at h
    split at h
    · exact Staging.run_runs _ s a s' h
    · cases h
  | renameTable id name =>
    rw [stage_renameTable] at h
    split at h
    · exact Staging.run_runs _ s a s' h
    · cases h
  | alterTable id fields =>
    rw [stage_alterTable] at h
    split at h
    · split at h
      · exact Staging.run_runs _ s a s' h
      · cases h
    · cases h
  | create table id fields => exact Staging.run_runs _ s a s' h
  | apply table id fields =>
    exact (Staging.run_runs _).bind (fun _ => Staging.maintain_runs table id) s a s' h
  | delete table id =>
    exact (Staging.run_runs _).bind (fun _ => Staging.maintain_runs table id) s a s' h
  | retainLast table id count => exact Staging.run_runs _ s a s' h
  | snapshot table id => exact Staging.run_runs _ s a s' h

end Call

/-! ### Runs of calls -/

section Runs

variable (env : Env)

/-- **Nothing more will succeed** on a transaction: its lease is gone, or what it holds is
doomed. -/
def Transaction.Doomed (t : Transaction) : Prop := ∀ s, t.value = some s → s.Doomed env

/-- No call of a run runs out of numbers. -/
def Call.Spared : List Call → Transaction → Prop
  | [], _ => True
  | call :: calls, t =>
    (∀ s, t.value = some s → ¬ call.Exhausts s.catalog) ∧ Spared calls ((call.perform env).run t).2

/-- **The recorded operations stand for what has been staged**: in any recovery they run on the
base view, and stage the same. -/
def Staging.Replays (base : ReadState) (s : Staging) : Prop :=
  ∀ (env' : Env) (options : Options) (tick : ℕ), env'.Recovers →
    ∃ s₀ t, Staging.new env' base options true tick = .ok s₀ ∧
      (Staging.runAll env' s.operations).run s₀ = (.ok (), t) ∧ Mirrors s t

variable {env}

/-- **What a call does to a lease.** -/
theorem Transaction.with_cases {α : Type} {stage : Stage α} {t t' : Transaction} {r : Result α}
    (h : (Transaction.«with» env stage).run t = (r, t')) :
    ((∃ e, r = .error e) ∧ t'.value = none) ∨
      ∃ s s' ticks, t.value = some s ∧ stage.run s.looked = (r, s') ∧ s'.ticks ≤ ticks ∧
        t'.value = some { s' with ticks } := by
  change Transaction.«with» env stage t = (r, t') at h
  unfold Transaction.«with» at h
  split at h
  · next hvalue =>
    cases h
    exact Or.inl ⟨⟨_, rfl⟩, hvalue⟩
  · next s hvalue =>
    dsimp only at h
    split at h
    · cases h
      exact Or.inl ⟨⟨_, rfl⟩, rfl⟩
    · rcases hs : stage.run s.looked with ⟨r', s'⟩
      rw [hs] at h
      dsimp only at h
      split at h
      · cases h
        exact Or.inl ⟨⟨_, rfl⟩, rfl⟩
      · cases h
        exact Or.inr ⟨s, s', _, hvalue, hs, Nat.le_succ _, rfl⟩

namespace Call

/-- **After a call that fails, the transaction is doomed.** -/
theorem perform_dooms {call : Call} {t t' : Transaction} {e : Error}
    (hspared : ∀ s, t.value = some s → ¬ call.Exhausts s.catalog)
    (h : (call.perform env).run t = (.error e, t')) : t'.Doomed env := by
  rcases Transaction.with_cases h with ⟨-, hnone⟩ | ⟨s, s', ticks, hvalue, hrun, hle, hvalue'⟩
  · intro s hs
    rw [hnone] at hs
    cases hs
  · intro s₁ hs₁
    rw [hvalue'] at hs₁
    cases hs₁
    exact (stage_dooms (s := s.looked) (hspared s hvalue) hrun).later hle

/-- **No call on a doomed transaction succeeds.** -/
theorem perform_refuses (call : Call) {t t' : Transaction} {r : Result Unit}
    (hdoomed : t.Doomed env) (h : (call.perform env).run t = (r, t')) :
    (∃ e, r = .error e) ∧ t'.Doomed env := by
  rcases Transaction.with_cases h with ⟨hr, hnone⟩ | ⟨s, s', ticks, hvalue, hrun, hle, hvalue'⟩
  · refine ⟨hr, fun s hs => ?_⟩
    rw [hnone] at hs
    cases hs
  · have hlooked : s.looked.Doomed env := (hdoomed s hvalue).later (Nat.le_succ _)
    obtain ⟨e, s₁, hrun', hs₁⟩ := stage_refuses call s.looked hlooked
    rw [hrun'] at hrun
    cases hrun
    refine ⟨⟨e, rfl⟩, fun s₂ hs₂ => ?_⟩
    rw [hvalue'] at hs₂
    cases hs₂
    exact hs₁.later hle

/-- A doomed transaction stays doomed, and all calls on it fail. -/
theorem performAll_refuses {calls : List Call} {t t' : Transaction} {results : List (Result Unit)}
    (hdoomed : t.Doomed env) (h : performAll env calls t = (results, t')) :
    (∀ r ∈ results, ∃ e, r = .error e) ∧ t'.Doomed env := by
  induction calls generalizing t results with
  | nil =>
    cases h
    exact ⟨by simp, hdoomed⟩
  | cons call calls ih =>
    rcases hcall : (call.perform env).run t with ⟨r, t₁⟩
    rcases hcalls : performAll env calls t₁ with ⟨rs, t₂⟩
    rw [performAll, hcall] at h
    dsimp only at h
    rw [hcalls] at h
    cases h
    obtain ⟨hr, ht₁⟩ := perform_refuses call hdoomed hcall
    obtain ⟨hrs, ht₂⟩ := ih ht₁ hcalls
    exact ⟨List.forall_mem_cons.mpr ⟨hr, hrs⟩, ht₂⟩

/-- **In a run that is spared, an error is followed by errors alone**, and leaves the
transaction doomed. -/
theorem performAll_dooms {calls : List Call} {t t' : Transaction} {results : List (Result Unit)}
    (hspared : Spared env calls t) (h : performAll env calls t = (results, t')) :
    results.Pairwise (fun r r' => (∃ e, r = .error e) → ∃ e, r' = .error e) ∧
      ((∃ r ∈ results, ∃ e, r = .error e) → t'.Doomed env) := by
  induction calls generalizing t results with
  | nil =>
    cases h
    simp
  | cons call calls ih =>
    rcases hcall : (call.perform env).run t with ⟨r, t₁⟩
    rcases hcalls : performAll env calls t₁ with ⟨rs, t₂⟩
    rw [performAll, hcall] at h
    dsimp only at h
    rw [hcalls] at h
    cases h
    obtain ⟨hcallSpared, hcallsSpared⟩ := hspared
    rw [hcall] at hcallsSpared
    cases r with
    | ok _ =>
      obtain ⟨hpair, hdoomed⟩ := ih hcallsSpared hcalls
      refine ⟨List.pairwise_cons.mpr ⟨fun r _ hok => ?_, hpair⟩, fun hex => hdoomed ?_⟩
      · obtain ⟨e, he⟩ := hok
        cases he
      · obtain ⟨r, hr, e, he⟩ := hex
        rcases List.mem_cons.mp hr with rfl | hr
        · cases he
        · exact ⟨r, hr, e, he⟩
    | error e =>
      obtain ⟨hall, hdoomed⟩ := performAll_refuses (perform_dooms hcallSpared hcall) hcalls
      refine ⟨List.pairwise_cons.mpr ⟨fun r hr _ => hall r hr, ?_⟩, fun _ => hdoomed⟩
      exact List.pairwise_of_forall_mem_list fun r _ r' hr' _ => hall r' hr'

end Call

/-- **A doomed transaction does not commit**, and the database stays as it is. -/
theorem Transaction.commit_refuses {t : Transaction} (h : t.Doomed env)
    (target : Prepared → Fallible Error Database ℕ) (db : Database) :
    ∃ e, (t.commit env target).run db = (.error e, db) := by
  rw [Transaction.commit, run_bind, run_lift]
  cases htake : t.take env with
  | error e => exact ⟨e, rfl⟩
  | ok s =>
    have hs : s.Doomed env := by
      unfold Transaction.take at htake
      split at htake
      · cases htake
      · next s₀ hvalue =>
        split at htake
        · cases htake
        · cases htake
          exact (h s₀ hvalue).later (Nat.le_succ _)
    dsimp only
    rw [run_bind, run_lift]
    cases hp : env.poisoned s.ticks with
    | true => exact ⟨_, rfl⟩
    | false =>
      rw [if_neg Bool.false_ne_true]
      dsimp only
      have hf : s.failed = true := hs.resolve_right (by rw [hp]; exact Bool.false_ne_true)
      rw [run_bind, run_lift, hf]
      exact ⟨_, rfl⟩

/-! ### What the recorded operations stand for -/

namespace Staging

/-- What has been staged is the same later on. -/
theorem Replays.later {base : ReadState} {s : Staging} (h : s.Replays base) (ticks : ℕ) :
    Replays base { s with ticks } := by
  intro env' options tick henv
  obtain ⟨s₀, t, hnew, hrun, hmirrors⟩ := h env' options tick henv
  exact ⟨s₀, t, hnew, hrun, hmirrors.base, hmirrors.permit, hmirrors.catalog, hmirrors.staged,
    hmirrors.operations, hmirrors.failed⟩

/-- A new transaction has staged nothing. -/
theorem replays_of_new {base : ReadState} {options : Options} {recovery : Bool} {tick : ℕ}
    {s : Staging} (h : new env base options recovery tick = .ok s) : s.Replays base := by
  obtain ⟨_, -, hs⟩ := bind_eq_ok.mp h
  cases hs
  intro env' options' tick' henv
  exact ⟨_, _, rfl, rfl, rfl, rfl, rfl, rfl, rfl, rfl⟩

/-- Operations that run are recorded. -/
theorem runAll_operations {operations : List Operation} {s s' : Staging}
    (h : (runAll env operations).run s = (.ok (), s')) :
    s'.operations = s.operations ++ operations := by
  induction operations generalizing s with
  | nil =>
    cases h
    simp
  | cons operation operations ih =>
    obtain ⟨_, s₁, hrun, hrest⟩ := run_bind_eq_ok.mp h
    rw [ih hrest, run_operations env hrun, List.append_assoc, List.singleton_append]

/-- Operations that have run run again in a recovery, with the same effect. -/
theorem runAll_simulates {env' : Env} (henv : env'.Recovers) (operations : List Operation) :
    Simulates Mirrors Eq (Staging.runAll env operations) (Staging.runAll env' operations) := by
  induction operations with
  | nil => exact .pure rfl
  | cons operation operations ih =>
    exact (run_simulates env henv operation).bind fun _ _ _ => ih

/-- **Running operations keeps what is recorded in step with what is staged.** -/
theorem Replays.runAll {base : ReadState} {operations : List Operation} {s s' : Staging}
    (h : s.Replays base) (hrun : (runAll env operations).run s = (.ok (), s')) :
    s'.Replays base := by
  intro env' options tick henv
  obtain ⟨s₀, t, hnew, hreplay, hmirrors⟩ := h env' options tick henv
  obtain ⟨_, t', ht', -, hmirrors'⟩ := runAll_simulates henv operations s t () s' hmirrors hrun
  have hoperations := runAll_operations hrun
  refine ⟨s₀, t', hnew, ?_, hmirrors'⟩
  rw [hoperations, runAll_append]
  exact run_bind_eq_ok.mpr ⟨(), t, hreplay, ht'⟩

end Staging

/-- **As long as all calls succeed, the recorded operations stand for what has been staged.** -/
theorem Call.performAll_replays {base : ReadState} {calls : List Call} {t t' : Transaction}
    {results : List (Result Unit)} {s : Staging} (hvalue : t.value = some s)
    (hreplays : s.Replays base) (h : performAll env calls t = (results, t'))
    (hok : ∀ r ∈ results, r = .ok ()) : ∃ s', t'.value = some s' ∧ s'.Replays base := by
  induction calls generalizing t results s with
  | nil =>
    cases h
    exact ⟨s, hvalue, hreplays⟩
  | cons call calls ih =>
    rcases hcall : (call.perform env).run t with ⟨r, t₁⟩
    rcases hcalls : performAll env calls t₁ with ⟨rs, t₂⟩
    rw [performAll, hcall] at h
    dsimp only at h
    rw [hcalls] at h
    cases h
    obtain ⟨hr, hrs⟩ := List.forall_mem_cons.mp hok
    rcases Transaction.with_cases hcall with ⟨⟨e, he⟩, -⟩ | ⟨s₁, s', ticks, hs₁, hrun, -, hvalue'⟩
    · rw [he] at hr
      cases hr
    · rw [hvalue] at hs₁
      cases hs₁
      rw [hr] at hrun
      obtain ⟨operations, hops⟩ := stage_runs call _ _ _ hrun
      exact ih hvalue' (((hreplays.later _).runAll hops).later ticks) hcalls hrs

/-! ### A failed write aborts its transaction -/

/-- **A failed write aborts its whole transaction**, in every run of calls that does not run out
of numbers. After an error all later calls fail, and the commit fails and leaves the database as
it is. If all calls succeed, the recorded operations run on the base view in any recovery, and
stage exactly the entities and the catalog that the transaction has staged. -/
theorem failed_write_aborts {base : ReadState} {options : Options} {requested : TransactionOptions}
    {tick : ℕ} {calls : List Call} {t t' : Transaction} {results : List (Result Unit)}
    (hnew : Transaction.new env base options false requested tick = .ok t)
    (hspared : Call.Spared env calls t) (hcalls : Call.performAll env calls t = (results, t')) :
    results.Pairwise (fun r r' => (∃ e, r = .error e) → ∃ e, r' = .error e) ∧
      ((∃ r ∈ results, ∃ e, r = .error e) →
        ∀ (target : Prepared → Fallible Error Database ℕ) (db : Database),
          ∃ e, (t'.commit env target).run db = (.error e, db)) ∧
      ((∀ r ∈ results, r = .ok ()) → ∃ s, t'.value = some s ∧
        ∀ (env' : Env) (options' : Options) (tick' : ℕ), env'.Recovers →
          ∃ s₀ s₁, Staging.new env' base options' true tick' = .ok s₀ ∧
            (Staging.runAll env' s.operations).run s₀ = (.ok (), s₁) ∧
            s₁.staged = s.staged ∧ s₁.catalog = s.catalog) := by
  obtain ⟨hpair, hdoomed⟩ := Call.performAll_dooms hspared hcalls
  refine ⟨hpair, fun herror => Transaction.commit_refuses (hdoomed herror), fun hok => ?_⟩
  obtain ⟨s, hstaging, hlease⟩ := bind_eq_ok.mp hnew
  obtain ⟨last, -, heq⟩ := bind_eq_ok.mp hlease
  cases heq
  have hreplays : s.looked.Replays base := (Staging.replays_of_new hstaging).later _
  obtain ⟨s', hvalue, hs'⟩ := Call.performAll_replays rfl hreplays hcalls hok
  refine ⟨s', hvalue, fun env' options' tick' henv => ?_⟩
  obtain ⟨s₀, s₁, hnew', hrun, hmirrors⟩ := hs' env' options' tick' henv
  exact ⟨s₀, s₁, hnew', hrun, hmirrors.staged, hmirrors.catalog⟩

end Runs

/-! ### A first transaction -/

/-- The view of a new database. -/
def emptyView (files : Files) : ReadState where
  root := ⟨Root.empty, files⟩
  catalog := Root.empty.catalog
  overlay := ∅
  lsn := Root.empty.lsn

/-- What a new transaction on it has staged, after some looks at its surroundings. -/
def emptyStaging (files : Files) (ticks : ℕ) : Staging where
  base := emptyView files
  options := Options.default
  permit := true
  reservation := ⟨8, 0⟩
  catalog := ∅
  staged := ∅
  operations := []
  failed := false
  ticks

/-- The transaction. -/
def emptyTransaction (files : Files) : Transaction where
  value := some (emptyStaging files 3)
  lastAccess := 0
  deadline := some (60 * 10 ^ 9)
  idle := some (30 * 10 ^ 9)
  operation := some (30 * 10 ^ 9)

theorem new_emptyView (files : Files) : Transaction.new (Env.quiet Limits.default false)
    (emptyView files) Options.default false ⟨none, none⟩ 0 = .ok (emptyTransaction files) := by
  have hdeadline : Store.deadline 0 (60 * 10 ^ 9) = .ok (60 * 10 ^ 9) := by decide
  exact bind_eq_ok.mpr ⟨emptyStaging files 2, rfl, bind_eq_ok.mpr
    ⟨some (60 * 10 ^ 9), congrArg (Except.map some) hdeadline, rfl⟩⟩

/-- What it has staged behind the creation of a table. -/
def tableStaging (files : Files) : Staging :=
  { emptyStaging files 8 with
    reservation := ⟨72, 448⟩
    catalog := (∅ : Catalog).insert 1 Catalog.oneTable
    operations := [.table Catalog.oneTable] }

set_option maxRecDepth 4000 in
/-- A first table can be created. -/
theorem createTable_empty (files : Files) : ((Call.createTable "items"
    ⟨1, [⟨1, "name", .text, false⟩]⟩).perform (Env.quiet Limits.default false)).run
      (emptyTransaction files) =
        (.ok (), { emptyTransaction files with value := some (tableStaging files) }) := by
  have hlast : (emptyStaging files 4).catalog.lastId = 0 := by simp [emptyStaging, Catalog.lastId]
  have hcreate : (emptyStaging files 4).catalog.createTable "items"
      ⟨1, [⟨1, "name", .text, false⟩]⟩ = .ok Catalog.oneTable := by
    rw [Catalog.createTable, hlast]
    rfl
  have hexecute (s : Staging) (hs : s.catalog = ∅) :
      (Staging.execute (Env.quiet Limits.default false) (.table Catalog.oneTable)).run s =
        (.ok (), { s with catalog := (∅ : Catalog).insert 1 Catalog.oneTable }) := by
    change (Fallible.lift (s.catalog.change Catalog.oneTable) >>= fun catalog =>
      (modify fun s => { s with catalog } : Stage Unit)).run s = _
    rw [hs, Catalog.change_oneTable]
    rfl
  have hcharge : (Staging.charge (Env.quiet Limits.default false)
      (.table Catalog.oneTable)).run (emptyStaging files 5) =
        (.ok (), { emptyStaging files 7 with reservation := ⟨72, 448⟩ }) := rfl
  have hattempt : (Staging.attempt (Env.quiet Limits.default false)
      (.table Catalog.oneTable)).run (emptyStaging files 5) = (.ok (), { emptyStaging files 7 with
        reservation := ⟨72, 448⟩
        catalog := (∅ : Catalog).insert 1 Catalog.oneTable }) :=
    run_bind_eq_ok.mpr ⟨(), _, hcharge, hexecute _ rfl⟩
  have hrun : (Staging.run (Env.quiet Limits.default false) (.table Catalog.oneTable)).run
      (emptyStaging files 4) = (.ok (), { tableStaging files with ticks := 7 }) := by
    change Staging.record (Env.quiet Limits.default false) (.table Catalog.oneTable)
      (emptyStaging files 5) = _
    rw [Staging.record, hattempt]
    rfl
  have hstage : ((Call.createTable "items" ⟨1, [⟨1, "name", .text, false⟩]⟩).stage
      (Env.quiet Limits.default false)).run (emptyStaging files 4) =
        (.ok (), { tableStaging files with ticks := 7 }) := by
    rw [Call.stage_createTable, hcreate]
    exact hrun
  change (if (emptyTransaction files).overrun 0 0 then
      ((.error .deadlineExceeded, (emptyTransaction files).drop) : Result Unit × Transaction)
    else ((((Call.createTable "items" ⟨1, [⟨1, "name", .text, false⟩]⟩).stage
        (Env.quiet Limits.default false)).run (emptyStaging files 4)).1,
      { emptyTransaction files with
        value := some (((Call.createTable "items" ⟨1, [⟨1, "name", .text, false⟩]⟩).stage
          (Env.quiet Limits.default false)).run (emptyStaging files 4)).2.looked
        lastAccess := 0 })) = _
  rw [hstage]
  rfl

/-- The fields of an item. -/
def named (name : String) : Fields := Std.ExtTreeMap.ofList [(1, .text name)] compare

/-- The calls of a first transaction: it creates a table and an item, and changes the item. -/
def firstCalls : List Call :=
  [.createTable "items" ⟨1, [⟨1, "name", .text, false⟩]⟩, .create 1 7 (named "a"),
   .apply 1 7 (named "b")]

/-- The item. -/
def firstEntity : EntityData where
  current := ⟨7, 1, 1, false, named "b"⟩
  base := ⟨7, 0, 1, false, named "a"⟩
  events := [⟨1, 1, 1, .apply, named "b"⟩]
  committed := ∅
  snapshots := ∅
  disk := none

/-- The operations it has recorded. -/
def firstOperations : List Operation :=
  [.table Catalog.oneTable, .create 1 7 (named "a"), .apply 1 7 (named "b")]

/-- What the transaction has staged. -/
def firstStaging (files : Files) : Staging :=
  { tableStaging files with
    reservation := ⟨150, 1990⟩
    staged := (∅ : SortedMap (ℕ × ℕ) EntityData).insert (1, 7) firstEntity
    operations := firstOperations
    ticks := 18 }

/-- Its batch. -/
def firstBatch (files : Files) : Prepared := (firstStaging files).looked.prepare (some 5)

set_option maxRecDepth 4000 in
/-- All of its calls succeed. -/
theorem performAll_firstCalls (files : Files) :
    Call.performAll (Env.quiet Limits.default false) firstCalls (emptyTransaction files) =
      ([.ok (), .ok (), .ok ()],
        { emptyTransaction files with value := some (firstStaging files) }) := by
  have hrest : Call.performAll (Env.quiet Limits.default false)
      [.create 1 7 (named "a"), .apply 1 7 (named "b")]
        { emptyTransaction files with value := some (tableStaging files) } =
          ([.ok (), .ok ()],
            { emptyTransaction files with value := some (firstStaging files) }) := rfl
  rw [firstCalls, Call.performAll, createTable_empty]
  dsimp only
  rw [hrest]

/-- So what they have recorded stands for what they have staged. -/
theorem replays_firstStaging (files : Files) : (firstStaging files).Replays (emptyView files) := by
  have hnew : Staging.new (Env.quiet Limits.default false) (emptyView files) Options.default false
      0 = .ok (emptyStaging files 2) := rfl
  have hok : ∀ r ∈ [.ok (), .ok (), .ok ()], r = (.ok () : Result Unit) := by
    simp
  obtain ⟨s, hs, hreplays⟩ := Call.performAll_replays (t := emptyTransaction files) rfl
    ((Staging.replays_of_new hnew).later 3) (performAll_firstCalls files) hok
  cases hs
  exact hreplays

/-! ### Failed writes -/

/-- An exclusive database commits a batch by itself, which gets an answer. -/
def commitAlone (env : Env) (batch : Prepared) : Fallible Error Database ℕ := fun db =>
  let (answer, db) := batch.commit env (fun db => (.ok (), db)) .done 0 db
  (answer.getD (.error .needsRecovery), db)

/-- A transaction on the view with one table. -/
def oneTableTransaction : Transaction where
  value := some Staging.oneTableStaging.looked
  lastAccess := 0
  deadline := some (60 * 10 ^ 9)
  idle := some (30 * 10 ^ 9)
  operation := some (30 * 10 ^ 9)

/-- An empty database over a view. -/
def Database.over (state : ReadState) : Database where
  wal := []
  walBytes := 0
  sharedMode := false
  checkpointTail := none
  state
  published := state
  poisoned := false
  options := Options.default

/-- An entity is created twice. -/
def twiceCreated : List Call :=
  [.create 1 7 (Std.ExtTreeMap.ofList [(1, .text "a")] compare),
   .create 1 7 (Std.ExtTreeMap.ofList [(1, .text "b")] compare)]

/-- The second call fails, and the transaction does not commit. -/
theorem failed_write_aborts_run :
    ∃ e, (Transaction.commit (Env.quiet Limits.default false)
      (commitAlone (Env.quiet Limits.default false))
      (Call.performAll (Env.quiet Limits.default false) twiceCreated oneTableTransaction).2).run
      (Database.over Staging.oneTableView) = (.error e, Database.over Staging.oneTableView) := by
  have hnew : Transaction.new (Env.quiet Limits.default false) Staging.oneTableView
      Options.default false ⟨none, none⟩ 0 = .ok oneTableTransaction := rfl
  have hspared : Call.Spared (Env.quiet Limits.default false) twiceCreated oneTableTransaction := by
    refine ⟨fun s _ => ?_, fun s _ => ?_, trivial⟩
    · exact id
    · exact id
  have hresults : (Call.performAll (Env.quiet Limits.default false) twiceCreated
      oneTableTransaction).1 = [.ok (), .error (.alreadyExists "entity 7")] := by decide +kernel
  rcases hrun : Call.performAll (Env.quiet Limits.default false) twiceCreated
    oneTableTransaction with ⟨results, t'⟩
  rw [hrun] at hresults
  obtain rfl : results = _ := hresults
  refine (failed_write_aborts hnew hspared hrun).2.1 ?_ _ _
  exact ⟨_, List.mem_cons_of_mem _ List.mem_cons_self, _, rfl⟩

/-- A view whose only table has the largest identifier. -/
def lastTableView : ReadState where
  root :=
    { manifest :=
        { Root.empty with
          catalog := (∅ : Catalog).insert maxU64 { Catalog.oneTable with id := maxU64 } }
      files := Files.empty }
  catalog := (∅ : Catalog).insert maxU64 { Catalog.oneTable with id := maxU64 }
  overlay := ∅
  lsn := 0

/-- What a new transaction on it has staged, after some looks at its surroundings. -/
def lastTableStaging (ticks : ℕ) : Staging :=
  { Staging.oneTableStaging with
    base := lastTableView
    catalog := lastTableView.catalog
    ticks }

/-- The transaction. -/
def lastTableTransaction (ticks : ℕ) : Transaction :=
  { oneTableTransaction with value := some (lastTableStaging ticks) }

/-- Its table cannot be followed by another one. -/
theorem lastId_lastTable : lastTableView.catalog.lastId = maxU64 := by
  simp [Catalog.lastId, lastTableView, Std.ExtTreeMap.maxKey?_insert]

/-- So creating one fails, and nothing else happens. -/
theorem createTable_lastTable (name : String) (schema : Schema) :
    ((Call.createTable name schema).perform (Env.quiet Limits.default false)).run
      (lastTableTransaction 3) =
        (.error (.invalid "table IDs exhausted"), lastTableTransaction 5) := by
  have hcreate : (lastTableStaging 4).catalog.createTable name schema =
      .error (.invalid "table IDs exhausted") := by
    rw [Catalog.createTable, show (lastTableStaging 4).catalog.lastId = maxU64 from
      lastId_lastTable]
    rfl
  have hstage : ((Call.createTable name schema).stage (Env.quiet Limits.default false)).run
      (lastTableStaging 4) = (.error (.invalid "table IDs exhausted"), lastTableStaging 4) := by
    rw [Call.stage_createTable, hcreate]
  change (let (result, s) := ((Call.createTable name schema).stage
      (Env.quiet Limits.default false)).run (lastTableStaging 4)
    if (lastTableTransaction 3).overrun 0 0 then
      ((.error .deadlineExceeded, (lastTableTransaction 3).drop) : Result Unit × Transaction)
    else (result, { lastTableTransaction 3 with value := some s.looked, lastAccess := 0 })) = _
  rw [hstage]
  rfl

/-- An entity of the table there is. -/
def lastTableCreate : Call := .create maxU64 7 (Std.ExtTreeMap.ofList [(1, .text "a")] compare)

/-- **A failed write that does not abort.** Behind the largest identifier no table can be created,
but the transaction goes on, and commits. -/
theorem exists_commit_after_error :
    Transaction.new (Env.quiet Limits.default false) lastTableView Options.default false
      ⟨none, none⟩ 0 = .ok (lastTableTransaction 3) ∧
    ∃ t, Call.performAll (Env.quiet Limits.default false)
      [.createTable "more" ⟨1, [⟨1, "name", .text, false⟩]⟩, lastTableCreate]
        (lastTableTransaction 3) = ([.error (.invalid "table IDs exhausted"), .ok ()], t) ∧
      ((t.commit (Env.quiet Limits.default false)
        (commitAlone (Env.quiet Limits.default false))).run (Database.over lastTableView)).1 =
          .ok 1 := by
  have hsecond : ((lastTableCreate.perform (Env.quiet Limits.default false)).run
      (lastTableTransaction 5)).1 = .ok () := by decide +kernel
  obtain ⟨t, ht⟩ := exists_run_eq_ok hsecond
  have hcommit : (((((lastTableCreate.perform (Env.quiet Limits.default false)).run
      (lastTableTransaction 5)).2.commit (Env.quiet Limits.default false)
        (commitAlone (Env.quiet Limits.default false))).run
          (Database.over lastTableView)).1) = .ok 1 := by decide +kernel
  rw [ht] at hcommit
  refine ⟨rfl, t, ?_, hcommit⟩
  rw [Call.performAll, createTable_lastTable]
  dsimp only
  rw [Call.performAll, ht]
  rfl

end EveDB.Store
