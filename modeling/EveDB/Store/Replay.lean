import EveDB.Store.Steps

/-!
# Running operations again

Operations that have run run again on the same view in a recovery transaction, with the same
effect (`Staging.run_simulates`), whatever the limits and the counters are: a recovery
transaction is never refused, and what storage returns does not depend on who asks.

This is why the recorded operations of a transaction stand for what it has staged, and why what
has been acknowledged can be replayed.
-/

namespace EveDB.Store

open Fallible

/-- A transaction and a recovery transaction on the same view that have staged the same. -/
structure Mirrors (s t : Staging) : Prop where
  base : t.base = s.base
  permit : t.permit = false
  catalog : t.catalog = s.catalog
  staged : t.staged = s.staged
  operations : t.operations = s.operations
  failed : t.failed = s.failed

/-- **Surroundings in which nothing is refused**: those of a recovery. -/
structure Env.Recovers (env : Env) : Prop where
  recovering : env.recovering = true
  poisoned : ∀ i, env.poisoned i = false

namespace Staging

variable (env : Env) {env' : Env} (henv : env'.Recovers)

theorem tick_simulates : Simulates Mirrors (fun _ _ => True) tick tick := by
  intro s t i s' hst hrun
  cases hrun
  exact ⟨_, _, rfl, trivial, ⟨hst.base, hst.permit, hst.catalog, hst.staged, hst.operations,
    hst.failed⟩⟩

theorem growDecoded_simulates (bytes : ℕ) :
    Simulates Mirrors Eq (growDecoded env bytes) (growDecoded env' bytes) := by
  refine tick_simulates.bind fun i j _ => Simulates.of_get.bind fun s t hst => ?_
  refine Simulates.bind (.lift fun _ _ => ?_) fun _ _ _ => .of_modify fun s t hst =>
    ⟨hst.base, hst.permit, hst.catalog, hst.staged, hst.operations, hst.failed⟩
  rw [hst.permit]
  rfl

include henv

theorem answer_simulates (request : Request) :
    Simulates Mirrors Eq (answer env request) (answer env' request) := by
  cases request with
  | scratch bytes | memory bytes | decoded bytes =>
    refine tick_simulates.bind fun i j _ => .lift fun _ _ => ?_
    simp only [Env.scratch, Env.memory, Env.decoded, henv.recovering, if_true, ok_bind]
  | charge bytes => exact growDecoded_simulates env bytes

theorem read_simulates {α : Type} (reading : Reading α) :
    Simulates Mirrors Eq (read env reading) (read env' reading) :=
  Guarded.simulates_run (answer_simulates env henv) reading

theorem ready_simulates : Simulates Mirrors Eq (ready env) (ready env') := by
  refine tick_simulates.bind fun i j _ => .lift fun _ _ => ?_
  rw [henv.poisoned]
  rfl

omit henv

theorem table_simulates (id : ℕ) : Simulates Mirrors Eq (table id) (table id) := by
  refine Simulates.of_get.bind fun s t hst => .lift fun a ha => ?_
  rwa [hst.catalog]

theorem data_simulates (key : ℕ × ℕ) : Simulates Mirrors Eq (data key) (data key) := by
  refine Simulates.of_get.bind fun s t hst => ?_
  rw [hst.staged]
  cases s.staged[key]?
  · exact .lift fun _ h => h
  · exact .pure rfl

theorem put_simulates (key : ℕ × ℕ) (data : EntityData) :
    Simulates Mirrors Eq (put key data) (put key data) :=
  .of_modify fun s t hst => { hst with staged := by rw [hst.staged] }

theorem cost_simulates (operation : Operation) :
    Simulates Mirrors Eq (cost operation) (cost operation) := by
  cases operation with
  | create t id fields =>
    exact (table_simulates t).bind fun _ _ h => h ▸ (Simulates.lift fun _ h => h).bind
      fun _ _ h => h ▸ .pure rfl
  | snapshot t id | retain t id n =>
    refine Simulates.of_get.bind fun s t hst => ?_
    rw [hst.staged]
    exact .pure rfl
  | apply t id fields | table t | delete t id => exact .pure rfl

theorem reserve_simulates (operation : Operation) :
    Simulates Mirrors Eq (reserve env operation) (reserve env' operation) := by
  intro s t a s' hst hrun
  have hbytes : (reserve env' operation).run t = (.ok (), t.reserved operation.encodedLen) := by
    change (if t.permit = true then _ else _ : Stage Unit) t = _
    rw [hst.permit]
    rfl
  refine ⟨(), _, hbytes, rfl, ?_⟩
  obtain ⟨-, rfl | rfl⟩ := reserve_ok env hrun <;>
    exact ⟨hst.base, hst.permit, hst.catalog, hst.staged, hst.operations, hst.failed⟩

theorem charge_simulates (operation : Operation) :
    Simulates Mirrors Eq (charge env operation) (charge env' operation) :=
  (cost_simulates operation).bind fun _ _ h => h ▸ (growDecoded_simulates env _).bind
    fun _ _ _ => reserve_simulates env operation

theorem chargeStaged_simulates (key : ℕ × ℕ) :
    Simulates Mirrors Eq (chargeStaged env key) (chargeStaged env' key) := by
  refine Simulates.of_get.bind fun s t hst => ?_
  rw [hst.staged]
  cases s.staged[key]?
  · exact .pure rfl
  · exact growDecoded_simulates env _

theorem executeCreate_simulates (table : Table) (key : ℕ × ℕ) (fields : Fields) :
    Simulates Mirrors Eq (executeCreate table key fields) (executeCreate table key fields) := by
  refine Simulates.of_get.bind fun s t hst => ?_
  rw [hst.staged]
  split
  · exact .lift fun _ h => h
  · refine (Simulates.lift fun _ h => h).bind fun schema _ h => h ▸ ?_
    refine (Simulates.lift fun _ h => h).bind fun fields _ h => h ▸ ?_
    refine Simulates.bind (.lift fun _ _ => ?_) fun _ _ _ => put_simulates key _
    rw [hst.permit]
    rfl

theorem addEvent_simulates (table : Table) (key : ℕ × ℕ) (kind : EventKind) (fields : Fields) :
    Simulates Mirrors Eq (addEvent table key kind fields) (addEvent table key kind fields) := by
  refine (data_simulates key).bind fun data _ h => h ▸ ?_
  refine (Simulates.lift fun _ h => h).bind fun schema _ h => h ▸ ?_
  refine Simulates.of_get.bind fun s t hst => ?_
  rw [hst.base]
  refine (Simulates.lift fun _ h => h).bind fun event _ h => h ▸ ?_
  exact (Simulates.lift fun _ h => h).bind fun current _ h => h ▸ put_simulates key _

theorem executeApply_simulates (table : Table) (key : ℕ × ℕ) (fields : Fields) :
    Simulates Mirrors Eq (executeApply table key fields) (executeApply table key fields) := by
  refine (data_simulates key).bind fun data _ h => h ▸ ?_
  split
  · exact .lift fun _ h => h
  · refine (Simulates.lift fun _ h => h).bind fun schema _ h => h ▸ ?_
    refine (Simulates.lift fun _ h => h).bind fun fields _ h => h ▸ ?_
    refine Simulates.of_get.bind fun s t hst => ?_
    refine Simulates.bind (.lift fun _ _ => ?_) fun _ _ _ =>
      addEvent_simulates table key .apply fields
    rw [hst.permit]
    rfl

include henv

theorem loadStaged_simulates (key : ℕ × ℕ) :
    Simulates Mirrors Eq (loadStaged env key) (loadStaged env' key) := by
  refine Simulates.of_get.bind fun s t hst => ?_
  rw [hst.staged, hst.base]
  split
  · refine (read_simulates env henv _).bind fun found _ h => h ▸ ?_
    cases found
    · exact .pure rfl
    · exact put_simulates key _
  · exact .pure rfl

theorem executeOn_simulates (table : Table) (key : ℕ × ℕ) (operation : Operation) :
    Simulates Mirrors Eq (executeOn env table key operation)
      (executeOn env' table key operation) := by
  cases operation with
  | table t => exact .pure rfl
  | create t id fields => exact executeCreate_simulates table key fields
  | apply t id fields => exact executeApply_simulates table key fields
  | delete t id => exact addEvent_simulates table key .delete ∅
  | retain t id n =>
    refine (chargeStaged_simulates env key).bind fun _ _ _ => ?_
    refine (data_simulates key).bind fun data _ h => h ▸ ?_
    exact (read_simulates env henv _).bind fun data _ h => h ▸ put_simulates key data
  | snapshot t id =>
    refine (chargeStaged_simulates env key).bind fun _ _ _ => ?_
    exact (data_simulates key).bind fun data _ h => h ▸ put_simulates key _

theorem execute_simulates (operation : Operation) :
    Simulates Mirrors Eq (execute env operation) (execute env' operation) := by
  have hentity (key : ℕ × ℕ) : Simulates Mirrors Eq (executeEntity env operation key)
      (executeEntity env' operation key) :=
    (table_simulates key.1).bind fun table _ h => h ▸ (loadStaged_simulates env henv key).bind
      fun _ _ _ => executeOn_simulates env henv table key operation
  cases operation with
  | table t =>
    refine Simulates.of_get.bind fun s t hst => ?_
    rw [hst.catalog]
    refine (Simulates.lift fun _ h => h).bind fun catalog _ h => h ▸ .of_modify fun s t hst => ?_
    exact { hst with catalog := rfl }
  | create t id fields => exact hentity (t, id)
  | apply t id fields => exact hentity (t, id)
  | delete t id => exact hentity (t, id)
  | retain t id n => exact hentity (t, id)
  | snapshot t id => exact hentity (t, id)

/-- **An operation that has run runs again in a recovery**, with the same effect. -/
theorem run_simulates (operation : Operation) :
    Simulates Mirrors Eq (run env operation) (run env' operation) := by
  refine (ready_simulates env henv).bind fun _ _ _ => ?_
  have hintact : Simulates Mirrors Eq intact intact :=
    Simulates.of_get.bind fun s t hst => .lift fun a h => by rwa [hst.failed]
  refine hintact.bind fun _ _ _ => ?_
  have hattempt : Simulates Mirrors Eq (attempt env operation) (attempt env' operation) :=
    (charge_simulates env operation).bind fun _ _ _ => execute_simulates env henv operation
  intro s t a s' hst hrun
  change record env operation s = _ at hrun
  rw [record] at hrun
  rcases hs : (attempt env operation).run s with ⟨e | _, s₁⟩
  · rw [hs] at hrun
    cases hrun
  · rw [hs] at hrun
    cases hrun
    obtain ⟨_, t₁, ht, -, hm⟩ := hattempt s t () s₁ hst hs
    refine ⟨(), { t₁ with operations := t₁.operations ++ [operation] }, ?_, rfl, ?_⟩
    · change record env' operation t = _
      rw [record, ht]
    · exact { hm with operations := by rw [hm.operations] }

end Staging

end EveDB.Store
