import Mathlib.Data.Nat.Notation

/-!
# Engine errors

The error type every fallible operation of the engine returns, with the text the
engine prints for it. The payload of an operating-system error is its message.
-/

namespace EveDB

/-- The isolation levels a transaction may ask for; only `snapshot` is served. -/
inductive IsolationLevel
  | readCommitted
  | snapshot
  | serializable
  deriving DecidableEq, Repr

/-- An engine, validation, or storage failure. -/
inductive Error
  /-- The operating system rejected an I/O operation. -/
  | io (message : String)
  /-- A stored structure failed validation. -/
  | corrupt (message : String)
  /-- A caller supplied an invalid schema or operation. -/
  | invalid (message : String)
  /-- A table or entity does not exist. -/
  | notFound (what : String)
  /-- An identifier or name already exists. -/
  | alreadyExists (what : String)
  /-- Another database handle owns the data directory. -/
  | locked
  /-- The deadline passed before the commit crossed the WAL boundary. -/
  | deadlineExceeded
  /-- A caller cancelled a cooperative read. -/
  | cancelled
  /-- A transaction or read snapshot expired. -/
  | transactionExpired
  /-- An admission limit rejected the step. -/
  | limitExceeded (resource : String) (limit : ℕ)
  /-- A requested isolation level is not implemented. -/
  | unsupportedIsolation (level : IsolationLevel)
  /-- A concurrent commit invalidated this transaction. -/
  | conflict (table entity : Option ℕ)
  /-- The requested version is outside the locally retained range. -/
  | versionUnavailable (requested first last : ℕ)
  /-- A write may have committed; reopen before inspecting or retrying it. -/
  | commitUnknown (message : String)
  /-- A previous uncertain write requires reopening this handle. -/
  | needsRecovery
  deriving DecidableEq, Repr

/-- The result of an engine operation. -/
abbrev Result (α : Type) := Except Error α

instance {α : Type} [DecidableEq α] : DecidableEq (Result α) := fun a b =>
  match a, b with
  | .ok x, .ok y => decidable_of_iff (x = y) (by simp)
  | .error x, .error y => decidable_of_iff (x = y) (by simp)
  | .ok _, .error _ => isFalse (by simp)
  | .error _, .ok _ => isFalse (by simp)

/-- How an optional identifier prints in a message. -/
private def debugOption : Option ℕ → String
  | none => "None"
  | some n => "Some(" ++ toString n ++ ")"

/-- The text of an error. -/
def Error.display : Error → String
  | .io e => "storage I/O failed: " ++ e
  | .corrupt s => "corrupt storage: " ++ s
  | .invalid s => "invalid operation: " ++ s
  | .notFound s => "not found: " ++ s
  | .alreadyExists s => "already exists: " ++ s
  | .locked => "the data directory is already open"
  | .cancelled => "read cancelled"
  | .deadlineExceeded => "operation deadline exceeded"
  | .transactionExpired => "transaction or snapshot expired"
  | .limitExceeded resource limit =>
    "limit exceeded: " ++ resource ++ " (maximum " ++ toString limit ++ ")"
  | .unsupportedIsolation level => "unsupported isolation level: " ++
    match level with
    | .readCommitted => "ReadCommitted"
    | .snapshot => "Snapshot"
    | .serializable => "Serializable"
  | .conflict table entity => "transaction conflict at table " ++ debugOption table ++
    ", entity " ++ debugOption entity ++ "; retry the whole transaction"
  | .versionUnavailable requested first last => "version " ++ toString requested ++
    " is unavailable; retained range is " ++ toString first ++ "..=" ++ toString last
  | .commitUnknown e => "commit outcome is unknown; reopen the database: " ++ e
  | .needsRecovery => "reopen the database after the previous storage failure"

/-- The error for a damaged stored structure. -/
abbrev corrupt {α : Type} (message : String) : Result α := .error (.corrupt message)

/-- The largest 64-bit value. -/
def maxU64 : ℕ := UInt64.size - 1

/-- Addition that fails when a 64-bit counter would overflow. -/
def checkedAdd (a b : ℕ) : Option ℕ := if a + b ≤ maxU64 then some (a + b) else none

/-- Addition that stops at the largest 64-bit value. -/
def saturatingAdd (a b : ℕ) : ℕ := min (a + b) maxU64

/-- Addition of 64-bit values without a check, which wraps around in a release build. -/
def wrappingAdd (a b : ℕ) : ℕ := (a + b) % UInt64.size

theorem wrappingAdd_of_le {a b : ℕ} (h : a + b ≤ maxU64) : wrappingAdd a b = a + b :=
  Nat.mod_eq_of_lt (Nat.lt_of_le_of_lt h (by decide))

theorem wrappingAdd_wrappingAdd (a b c : ℕ) :
    wrappingAdd (wrappingAdd a b) c = wrappingAdd a (b + c) := by
  rw [wrappingAdd, wrappingAdd, wrappingAdd, Nat.mod_add_mod, Nat.add_assoc]

/-- Where a limit is kept by the sum of three, it is kept when the first two have been added. -/
theorem saturatingAdd_wrappingAdd_le {a b c limit : ℕ} (h : saturatingAdd a (b + c) ≤ limit) :
    saturatingAdd (wrappingAdd a b) c ≤ limit := by
  have hle : wrappingAdd a b ≤ a + b := Nat.mod_le _ _
  unfold saturatingAdd at h ⊢
  omega

/-- A saturated successor below the maximum is a successor. -/
theorem lt_of_saturatingAdd_le {a n : ℕ} (h : saturatingAdd a 1 ≤ n) (hmax : n + 1 ≤ maxU64) :
    a < n := by
  unfold saturatingAdd at h
  generalize maxU64 = m at h hmax
  omega

theorem checkedAdd_eq_some {a b c : ℕ} :
    checkedAdd a b = some c ↔ c = a + b ∧ a + b ≤ maxU64 := by
  unfold checkedAdd
  split <;> simp_all [eq_comm]

/-- Fails unless `used + additional` stays within `limit`. -/
def check (resource : String) (used additional limit : ℕ) : Result Unit :=
  if used + additional ≤ maxU64 ∧ used + additional ≤ limit then .ok ()
  else .error (.limitExceeded resource limit)

theorem check_eq_ok {resource : String} {used additional limit : ℕ} :
    check resource used additional limit = .ok () ↔
      used + additional ≤ maxU64 ∧ used + additional ≤ limit := by
  unfold check
  split <;> simp_all

/-- **A computation that succeeded went through its first part.** -/
theorem bind_eq_ok {α β : Type} {x : Result α} {f : α → Result β} {b : β} :
    x >>= f = .ok b ↔ ∃ a, x = .ok a ∧ f a = .ok b := by
  cases x <;> simp [bind, Except.bind]

/-- One that failed did so in its first part or behind it. -/
theorem bind_eq_error {α β : Type} {x : Result α} {f : α → Result β} {e : Error} :
    x >>= f = .error e ↔ x = .error e ∨ ∃ a, x = .ok a ∧ f a = .error e := by
  cases x <;> simp [bind, Except.bind]

/-- A mapped computation that succeeded has succeeded. -/
theorem map_eq_ok {α β : Type} {x : Result α} {f : α → β} {b : β} :
    f <$> x = .ok b ↔ ∃ a, x = .ok a ∧ f a = b := by
  cases x <;> simp [Functor.map, Except.map]

@[simp] theorem ok_bind {α β : Type} (a : α) (f : α → Result β) :
    ((.ok a : Result α) >>= f) = f a := rfl

@[simp] theorem error_bind {α β : Type} (e : Error) (f : α → Result β) :
    ((.error e : Result α) >>= f) = .error e := rfl

@[simp] theorem pure_eq_ok {α : Type} (a : α) : (pure a : Result α) = .ok a := rfl

/-- A check of all elements of a list. -/
theorem forM_eq_ok {α : Type} {check : α → Result Unit} {l : List α}
    (h : l.forM check = .ok ()) : ∀ a ∈ l, check a = .ok () := by
  induction l with
  | nil => simp
  | cons a l ih =>
    change (check a >>= fun _ => l.forM check) = .ok () at h
    obtain ⟨⟨⟩, ha, h⟩ := bind_eq_ok.mp h
    exact List.forall_mem_cons.mpr ⟨ha, ih h⟩

end EveDB
