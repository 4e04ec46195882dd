import EveDB.Store.Staging

/-!
# What a step of a transaction does

The step lemmas of `EveDB.Store.Staging`. Asking for memory only changes what the transaction
has on its account (`Charged`); executing an operation also changes the staged catalog and the
staged entities, and nothing else (`Executed`), whether it succeeds or not. What running an
operation comes to is one of four things (`Staging.run_cases`), and in each of them everything
else about the transaction is as it was.
-/

namespace EveDB.Store

/-- Only the account of decoded memory has changed, and time has passed. -/
def Charged (s s' : Staging) : Prop :=
  ∃ decoded ticks, s.ticks ≤ ticks ∧
    s' = { s with reservation := ⟨s.reservation.bytes, decoded⟩, ticks }

/-- The staged entities may have changed as well. -/
def Touched (s s' : Staging) : Prop :=
  ∃ decoded ticks staged, s.ticks ≤ ticks ∧
    s' = { s with reservation := ⟨s.reservation.bytes, decoded⟩, ticks, staged }

/-- So may the staged catalog. -/
def Executed (s s' : Staging) : Prop :=
  ∃ decoded ticks catalog staged, s.ticks ≤ ticks ∧
    s' = { s with reservation := ⟨s.reservation.bytes, decoded⟩, ticks, catalog, staged }

namespace Charged

theorem refl (s : Staging) : Charged s s := ⟨_, _, le_rfl, rfl⟩

theorem trans (a b c : Staging) (h : Charged a b) (h' : Charged b c) : Charged a c := by
  obtain ⟨_, t, ht, rfl⟩ := h
  obtain ⟨d', t', ht', rfl⟩ := h'
  exact ⟨d', t', ht.trans ht', rfl⟩

theorem touched (s s' : Staging) (h : Charged s s') : Touched s s' := by
  obtain ⟨d, t, ht, rfl⟩ := h
  exact ⟨d, t, _, ht, rfl⟩

/-- What asking for memory leaves alone. -/
theorem spec {s s' : Staging} (h : Charged s s') :
    s'.base = s.base ∧ s'.options = s.options ∧ s'.permit = s.permit ∧
      s'.reservation.bytes = s.reservation.bytes ∧ s'.catalog = s.catalog ∧
      s'.staged = s.staged ∧ s'.operations = s.operations ∧ s'.failed = s.failed := by
  obtain ⟨d, t, ht, rfl⟩ := h
  exact ⟨rfl, rfl, rfl, rfl, rfl, rfl, rfl, rfl⟩

end Charged

namespace Touched

theorem refl (s : Staging) : Touched s s := ⟨_, _, _, le_rfl, rfl⟩

theorem trans (a b c : Staging) (h : Touched a b) (h' : Touched b c) : Touched a c := by
  obtain ⟨_, t, _, ht, rfl⟩ := h
  obtain ⟨d', t', e', ht', rfl⟩ := h'
  exact ⟨d', t', e', ht.trans ht', rfl⟩

theorem executed (s s' : Staging) (h : Touched s s') : Executed s s' := by
  obtain ⟨d, t, e, ht, rfl⟩ := h
  exact ⟨d, t, _, e, ht, rfl⟩

theorem catalog_eq {s s' : Staging} (h : Touched s s') : s'.catalog = s.catalog := by
  obtain ⟨d, t, e, ht, rfl⟩ := h
  rfl

end Touched

namespace Executed

theorem refl (s : Staging) : Executed s s := ⟨_, _, _, _, le_rfl, rfl⟩

theorem trans (a b c : Staging) (h : Executed a b) (h' : Executed b c) : Executed a c := by
  obtain ⟨_, t, _, _, ht, rfl⟩ := h
  obtain ⟨d', t', c', e', ht', rfl⟩ := h'
  exact ⟨d', t', c', e', ht.trans ht', rfl⟩

/-- What executing an operation leaves alone. -/
theorem spec {s s' : Staging} (h : Executed s s') :
    s'.base = s.base ∧ s'.options = s.options ∧ s'.permit = s.permit ∧
      s'.reservation.bytes = s.reservation.bytes ∧ s'.operations = s.operations ∧
      s'.failed = s.failed ∧ s.ticks ≤ s'.ticks := by
  obtain ⟨d, t, c, e, ht, rfl⟩ := h
  exact ⟨rfl, rfl, rfl, rfl, rfl, rfl, ht⟩

end Executed

namespace Staging

open Fallible

variable (env : Env)

/-! ### Asking for memory -/

theorem tick_keeps : Keeps Charged tick := fun _ => ⟨_, _, Nat.le_succ _, rfl⟩

theorem growDecoded_keeps (bytes : ℕ) : Keeps Charged (growDecoded env bytes) := by
  have hgrow : Keeps Charged (modify fun s : Staging => { s with
      reservation := ⟨s.reservation.bytes, s.reservation.decodedBytes + bytes⟩ } : Stage Unit) :=
    .of_modify fun s => ⟨_, _, le_rfl, rfl⟩
  exact tick_keeps.bind Charged.trans fun i => (Keeps.of_get Charged.refl).bind Charged.trans
    fun s => (Keeps.lift Charged.refl _).bind Charged.trans fun _ => hgrow

theorem answer_keeps (request : Request) : Keeps Charged (answer env request) := by
  cases request with
  | scratch bytes | memory bytes | decoded bytes =>
    exact tick_keeps.bind Charged.trans fun i => .lift Charged.refl _
  | charge bytes => exact growDecoded_keeps env bytes

theorem read_keeps {α : Type} (reading : Reading α) : Keeps Charged (read env reading) :=
  Guarded.keeps_run Charged.refl Charged.trans (answer_keeps env) reading

theorem table_keeps (id : ℕ) : Keeps Charged (table id) :=
  (Keeps.of_get Charged.refl).bind Charged.trans fun _ => .lift Charged.refl _

theorem data_keeps (key : ℕ × ℕ) : Keeps Charged (data key) := by
  refine (Keeps.of_get Charged.refl).bind Charged.trans fun s => ?_
  cases s.staged[key]?
  · exact .lift Charged.refl _
  · exact .pure Charged.refl _

theorem cost_keeps (operation : Operation) : Keeps Charged (cost operation) := by
  cases operation with
  | create t id fields =>
    exact (table_keeps t).bind Charged.trans fun _ => (Keeps.lift Charged.refl _).bind Charged.trans
      fun _ => .pure Charged.refl _
  | snapshot t id | retain t id n =>
    exact (Keeps.of_get Charged.refl).bind Charged.trans fun _ => .pure Charged.refl _
  | apply t id fields | table t | delete t id => exact .pure Charged.refl _

theorem chargeStaged_keeps (key : ℕ × ℕ) : Keeps Charged (chargeStaged env key) := by
  refine (Keeps.of_get Charged.refl).bind Charged.trans fun s => ?_
  cases s.staged[key]?
  · exact .pure Charged.refl _
  · exact growDecoded_keeps env _

/-! ### Executing an operation -/

theorem put_keeps (key : ℕ × ℕ) (data : EntityData) : Keeps Touched (put key data) :=
  .of_modify fun _ => ⟨_, _, _, le_rfl, rfl⟩

theorem loadStaged_keeps (key : ℕ × ℕ) : Keeps Touched (loadStaged env key) := by
  refine (Keeps.of_get Touched.refl).bind Touched.trans fun s => ?_
  split
  · refine ((read_keeps env _).mono Charged.touched).bind Touched.trans fun found => ?_
    cases found
    · exact .pure Touched.refl _
    · exact put_keeps key _
  · exact .pure Touched.refl _

theorem executeCreate_keeps (table : Table) (key : ℕ × ℕ) (fields : Fields) :
    Keeps Touched (executeCreate table key fields) := by
  refine (Keeps.of_get Touched.refl).bind Touched.trans fun s => ?_
  split
  · exact .lift Touched.refl _
  · refine (Keeps.lift Touched.refl _).bind Touched.trans fun schema => ?_
    refine (Keeps.lift Touched.refl _).bind Touched.trans fun fields => ?_
    exact (Keeps.lift Touched.refl _).bind Touched.trans fun _ => put_keeps key _

theorem addEvent_keeps (table : Table) (key : ℕ × ℕ) (kind : EventKind) (fields : Fields) :
    Keeps Touched (addEvent table key kind fields) := by
  refine ((data_keeps key).mono Charged.touched).bind Touched.trans fun data => ?_
  refine (Keeps.lift Touched.refl _).bind Touched.trans fun schema => ?_
  refine (Keeps.of_get Touched.refl).bind Touched.trans fun s => ?_
  refine (Keeps.lift Touched.refl _).bind Touched.trans fun event => ?_
  exact (Keeps.lift Touched.refl _).bind Touched.trans fun current => put_keeps key _

theorem executeApply_keeps (table : Table) (key : ℕ × ℕ) (fields : Fields) :
    Keeps Touched (executeApply table key fields) := by
  refine ((data_keeps key).mono Charged.touched).bind Touched.trans fun data => ?_
  split
  · exact .lift Touched.refl _
  · refine (Keeps.lift Touched.refl _).bind Touched.trans fun schema => ?_
    refine (Keeps.lift Touched.refl _).bind Touched.trans fun fields => ?_
    refine (Keeps.of_get Touched.refl).bind Touched.trans fun s => ?_
    exact (Keeps.lift Touched.refl _).bind Touched.trans fun _ =>
      addEvent_keeps table key .apply fields

theorem executeOn_keeps (table : Table) (key : ℕ × ℕ) (operation : Operation) :
    Keeps Touched (executeOn env table key operation) := by
  have hcharge := (chargeStaged_keeps env key).mono Charged.touched
  have hdata := (data_keeps key).mono Charged.touched
  cases operation with
  | table t => exact .pure Touched.refl _
  | create t id fields => exact executeCreate_keeps table key fields
  | apply t id fields => exact executeApply_keeps table key fields
  | delete t id => exact addEvent_keeps table key .delete ∅
  | retain t id n =>
    refine hcharge.bind Touched.trans fun _ => hdata.bind Touched.trans fun data => ?_
    exact ((read_keeps env _).mono Charged.touched).bind Touched.trans fun data =>
      put_keeps key data
  | snapshot t id =>
    exact hcharge.bind Touched.trans fun _ => hdata.bind Touched.trans fun data => put_keeps key _

/-- Loads the entity an operation is about, and executes it there. -/
def executeEntity (operation : Operation) (key : ℕ × ℕ) : Stage Unit := do
  let table ← table key.1
  loadStaged env key
  executeOn env table key operation

theorem executeEntity_keeps (operation : Operation) (key : ℕ × ℕ) :
    Keeps Touched (executeEntity env operation key) :=
  ((table_keeps key.1).mono Charged.touched).bind Touched.trans fun table =>
    (loadStaged_keeps env key).bind Touched.trans fun _ => executeOn_keeps env table key operation

/-- An operation is about a table, or about an entity. -/
theorem execute_eq (operation : Operation) :
    (∃ t, operation = .table t) ∨
      ∃ key, operation.entityKey = some key ∧
        execute env operation = executeEntity env operation key := by
  cases operation with
  | table t => exact Or.inl ⟨t, rfl⟩
  | create t id fields | apply t id fields | delete t id | retain t id n | snapshot t id =>
    exact Or.inr ⟨(t, id), rfl, rfl⟩

/-- **Executing an operation changes the staged catalog and the staged entities alone**, whether
it succeeds or not. -/
theorem execute_keeps (operation : Operation) : Keeps Executed (execute env operation) := by
  rcases execute_eq env operation with ⟨t, rfl⟩ | ⟨key, -, heq⟩
  · refine (Keeps.of_get Executed.refl).bind Executed.trans fun s => ?_
    exact (Keeps.lift Executed.refl _).bind Executed.trans fun catalog =>
      .of_modify fun _ => ⟨_, _, _, _, le_rfl, rfl⟩
  · rw [heq]
    exact (executeEntity_keeps env operation key).mono Touched.executed

/-- The transaction with more bytes reserved. -/
def reserved (s : Staging) (bytes : ℕ) : Staging :=
  { s with reservation := { s.reservation with bytes := s.reservation.bytes + bytes } }

/-- **Reserving the bytes of an operation** keeps a transaction that can be refused within its
limit. -/
theorem reserve_ok {operation : Operation} {s s' : Staging}
    (h : (reserve env operation).run s = (.ok (), s')) :
    (s.permit = true →
      s.reservation.bytes + operation.encodedLen ≤ s.options.limits.maxTransactionBytes) ∧
    (s' = s.reserved operation.encodedLen ∨ s' = s.looked.reserved operation.encodedLen) := by
  obtain ⟨_, _, hget, h⟩ := run_bind_eq_ok.mp h
  cases hget
  by_cases hpermit : s.permit = true
  · rw [if_pos hpermit] at h
    obtain ⟨⟨⟩, _, hcheck, h⟩ := run_bind_eq_ok.mp h
    obtain ⟨hcheck, rfl⟩ := Prod.ext_iff.mp hcheck
    obtain ⟨_, -, hbytes⟩ := bind_eq_ok.mp hcheck
    obtain ⟨_, _, htick, h⟩ := run_bind_eq_ok.mp h
    cases htick
    obtain ⟨_, _, hresident, h⟩ := run_bind_eq_ok.mp h
    obtain ⟨-, rfl⟩ := Prod.ext_iff.mp hresident
    cases h
    exact ⟨fun _ => (check_eq_ok.mp hbytes).2, Or.inr rfl⟩
  · rw [if_neg hpermit] at h
    cases h
    exact ⟨fun hp => absurd hp hpermit, Or.inl rfl⟩

/-- **Charging an operation** that is admitted adds its length to the reservation. -/
theorem charge_ok {operation : Operation} {s s' : Staging}
    (h : (charge env operation).run s = (.ok (), s')) :
    (s.permit = true →
      s.reservation.bytes + operation.encodedLen ≤ s.options.limits.maxTransactionBytes) ∧
    ∃ t, Charged s t ∧ s' = t.reserved operation.encodedLen := by
  obtain ⟨cost, s₁, hcost, h⟩ := run_bind_eq_ok.mp h
  obtain ⟨_, s₂, hgrow, h⟩ := run_bind_eq_ok.mp h
  have hcharged : Charged s s₂ := Charged.trans _ _ _
    ((cost_keeps operation).of_run hcost) ((growDecoded_keeps env _).of_run hgrow)
  obtain ⟨-, hoptions, hpermit, hbytes, -⟩ := hcharged.spec
  obtain ⟨hlimit, hs'⟩ := reserve_ok env h
  rw [hoptions, hpermit, hbytes] at hlimit
  refine ⟨hlimit, ?_⟩
  rcases hs' with rfl | rfl
  · exact ⟨s₂, hcharged, rfl⟩
  · exact ⟨s₂.looked, Charged.trans _ _ _ hcharged ⟨_, _, Nat.le_succ _, rfl⟩, rfl⟩

/-! ### Running an operation -/

/-- **What running an operation comes to.** -/
theorem run_cases {operation : Operation} {s s' : Staging} {r : Result Unit}
    (h : (run env operation).run s = (r, s')) :
    (env.poisoned s.ticks = true ∧ r = .error .needsRecovery ∧
      s' = s.looked) ∨
    (s.failed = true ∧
      r = .error (.invalid "transaction was aborted by an earlier operation") ∧
      s' = s.looked) ∨
    (s.failed = false ∧ ∃ e t, (attempt env operation).run s.looked =
      (.error e, t) ∧ r = .error e ∧ s' = { t with failed := true }) ∨
    (s.failed = false ∧ env.poisoned s.ticks = false ∧
      ∃ t, (attempt env operation).run s.looked = (.ok (), t) ∧
        r = .ok () ∧ s' = { t with operations := t.operations ++ [operation] }) := by
  have hready : (ready env).run s =
      (if env.poisoned s.ticks then .error .needsRecovery else .ok (), s.looked) := rfl
  have hintact : intact.run s.looked = (if s.failed then
      .error (.invalid "transaction was aborted by an earlier operation") else .ok (),
      s.looked) := rfl
  rw [run, run_bind, hready] at h
  cases hp : env.poisoned s.ticks with
  | true =>
    rw [hp] at h
    cases h
    exact Or.inl ⟨rfl, rfl, rfl⟩
  | false =>
    rw [hp, if_neg Bool.false_ne_true] at h
    dsimp only at h
    rw [run_bind, hintact] at h
    cases hf : s.failed with
    | true =>
      rw [hf] at h
      cases h
      exact Or.inr (Or.inl ⟨rfl, rfl, rfl⟩)
    | false =>
      rw [hf, if_neg Bool.false_ne_true] at h
      change record env operation s.looked = _ at h
      rw [record] at h
      rcases hattempt : (attempt env operation).run s.looked with ⟨e | _, t⟩
      · rw [hattempt] at h
        cases h
        exact Or.inr (Or.inr (Or.inl ⟨rfl, e, t, rfl, rfl, rfl⟩))
      · rw [hattempt] at h
        cases h
        exact Or.inr (Or.inr (Or.inr ⟨rfl, rfl, t, rfl, rfl, rfl⟩))

/-- **An operation that runs is recorded.** -/
theorem run_operations {operation : Operation} {s s' : Staging}
    (h : (run env operation).run s = (.ok (), s')) :
    s'.operations = s.operations ++ [operation] := by
  obtain ⟨-, hr, -⟩ | ⟨-, hr, -⟩ | ⟨-, _, _, -, hr, -⟩ | ⟨-, -, t, hattempt, -, rfl⟩ :=
    run_cases env h
  · cases hr
  · cases hr
  · cases hr
  obtain ⟨_, s₁, hcharge, hexecute⟩ := run_bind_eq_ok.mp hattempt
  obtain ⟨-, s₂, hcharged, rfl⟩ := charge_ok env hcharge
  obtain ⟨-, -, -, -, -, -, hoperations, -⟩ := hcharged.spec
  obtain ⟨-, -, -, -, hoperations', -, -⟩ := ((execute_keeps env operation).of_run hexecute).spec
  have hreserved : (s₂.reserved operation.encodedLen).operations = s₂.operations := rfl
  exact congrArg (· ++ [operation]) (hoperations'.trans (hreserved.trans hoperations))

end Staging

end EveDB.Store
