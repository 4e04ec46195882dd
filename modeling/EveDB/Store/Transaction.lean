import EveDB.Store.Database
import EveDB.Store.Replay

/-!
# Transactions and their leases

The handle a caller works with (`Transaction`). It holds what has been staged on a lease
(`deadline.rs`): every call looks at the clock before and after, a lease that has run out is
gone for good, and so is one during which a call took too long.

The sweeps of the reaper are not steps of their own. They take away leases that have run out,
and since time does not go back, the next call would find the lease run out all the same.
-/

namespace EveDB.Store

/-- What a caller may ask of a transaction. -/
structure TransactionOptions where
  timeout : Option ℕ
  idleTimeout : Option ℕ

/-- **A transaction**: its lease of what has been staged. -/
structure Transaction where
  value : Option Staging
  lastAccess : ℕ
  deadline : Option ℕ
  idle : Option ℕ
  operation : Option ℕ

namespace Transaction

variable (env : Env)

/-- A request shortened to the upper bound of the options; a recovery has no timeouts. -/
def bounded (recovery : Bool) (requested : Option ℕ) (bound : ℕ) : Option ℕ :=
  if recovery then none else some (requested.elim bound fun t => min t bound)

/-- **Begins a transaction** on a view. -/
def new (base : ReadState) (options : Options) (recovery : Bool) (requested : TransactionOptions)
    (tick : ℕ) : Result Transaction := do
  let data ← Staging.new env base options recovery tick
  let now := env.now data.ticks
  let deadline ←
    match bounded recovery requested.timeout options.timeouts.transaction with
    | some timeout => some <$> Store.deadline now timeout
    | none => pure none
  return { value := some data.looked, lastAccess := now, deadline
           idle := bounded recovery requested.idleTimeout options.timeouts.idleTransaction
           operation := if recovery then none else some options.timeouts.operation }

/-- The lease has run out. -/
def runOut (t : Transaction) (now : ℕ) : Bool :=
  expired t.deadline now || t.idle.any fun idle => idle ≤ now - t.lastAccess

/-- A call has outlived the lease, or took too long. -/
def overrun (t : Transaction) (start now : ℕ) : Bool :=
  expired t.deadline now || t.operation.any fun limit => limit ≤ now - start

/-- The lease without its value. -/
def drop (t : Transaction) : Transaction := { t with value := none }

/-- **Works on what has been staged** (`LeaseState::with`). -/
def «with» {α : Type} (stage : Stage α) : Fallible Error Transaction α := fun t =>
  match t.value with
  | none => (.error .transactionExpired, t)
  | some s =>
    let start := env.now s.ticks
    if t.runOut start then (.error .transactionExpired, t.drop)
    else
      let (result, s) := stage.run s.looked
      let now := env.now s.ticks
      if t.overrun start now then (.error .deadlineExceeded, t.drop)
      else (result, { t with value := some s.looked, lastAccess := now })

/-- Takes what has been staged (`LeaseState::take`). -/
def take (t : Transaction) : Result Staging :=
  match t.value with
  | none => .error .transactionExpired
  | some s => if t.runOut (env.now s.ticks) then .error .transactionExpired else .ok s.looked

/-- **Commits a transaction.** What commits a batch is the database itself, or the queue of a
shared one. -/
def commit (target : Prepared → Fallible Error Database ℕ) (t : Transaction) :
    Fallible Error Database ℕ := do
  let s ← Fallible.lift (t.take env)
  Fallible.lift (if env.poisoned s.ticks then .error .needsRecovery else .ok ())
  Fallible.lift (if s.failed then .error (.invalid "cannot commit an aborted transaction")
    else .ok ())
  let queueEnd ← Fallible.lift
    (Store.deadline (env.now (s.ticks + 1)) s.options.timeouts.commitQueue)
  target (s.prepare (some (t.deadline.elim queueEnd fun last => min last queueEnd)))

end Transaction

/-! ### The staging calls -/

/-- **A write call on a transaction.** -/
inductive Call
  | createTable (name : String) (schema : Schema)
  | renameTable (id : ℕ) (name : String)
  | alterTable (id : ℕ) (fields : List Field)
  | create (table id : ℕ) (fields : Fields)
  | apply (table id : ℕ) (fields : Fields)
  | delete (table id : ℕ)
  | retainLast (table id count : ℕ)
  | snapshot (table id : ℕ)

namespace Call

variable (env : Env)

/-- What a call does with what has been staged. -/
def stage : Call → Stage Unit
  | .createTable name schema => do
    let _ ← Staging.createTable env name schema
    return ()
  | .renameTable id name => Staging.renameTable env id name
  | .alterTable id fields => Staging.alterTable env id fields
  | .create table id fields => Staging.create env table id fields
  | .apply table id fields => Staging.apply env table id fields
  | .delete table id => Staging.delete env table id
  | .retainLast table id count => Staging.retainLast env table id count
  | .snapshot table id => Staging.snapshot env table id

/-- Makes a call. -/
def perform (call : Call) : Fallible Error Transaction Unit :=
  Transaction.«with» env (call.stage env)

/-- Makes calls one after another, whether they succeed or not. -/
def performAll : List Call → Transaction → List (Result Unit) × Transaction
  | [], t => ([], t)
  | call :: calls, t =>
    let (result, t) := (call.perform env).run t
    let (results, t) := performAll calls t
    (result :: results, t)

end Call

end EveDB.Store
