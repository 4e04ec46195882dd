import Mathlib.Data.List.Basic

/-!
# The behaviour of a machine

A machine takes inputs one after the other, unless it refuses one, and shows something of each of
its states (`Machine`). What it shows behind every list of inputs is the behaviour of a state
(`Machine.behaviour`), which is all that can be told of the state from outside.

A behaviour takes inputs itself (`Behaviour.step`), and a state goes along with its behaviour
(`Machine.step_behaviour`). So behaviours stand for the states of any machine, whatever these are
made of: two states have one behaviour if nothing that comes can tell them apart.
-/

/-- **A machine.** -/
structure Machine (σ α ο : Type) where
  /-- Takes an input, or refuses it. -/
  step : σ → α → Option σ
  /-- What a state shows. -/
  observe : σ → ο

/-- **A behaviour**: what is shown behind each list of inputs, if none of them is refused. -/
abbrev Behaviour (α ο : Type) := List α → Option ο

variable {σ α ο : Type}

/-- A behaviour takes an input, unless it shows nothing behind it. -/
def Behaviour.step (b : Behaviour α ο) (a : α) : Option (Behaviour α ο) :=
  if (b [a]).isSome then some fun as => b (a :: as) else none

/-- What is left of a behaviour is the rest of it. -/
theorem Behaviour.step_eq_some {b b' : Behaviour α ο} {a : α} (h : b.step a = some b')
    (as : List α) : b' as = b (a :: as) := by
  unfold step at h
  split at h
  · cases h
    rfl
  · cases h

namespace Machine

variable (m : Machine σ α ο)

/-- Takes inputs one after the other. -/
def run (s : σ) (as : List α) : Option σ := as.foldlM m.step s

/-- What is shown behind a state. -/
def behaviour (s : σ) : Behaviour α ο := fun as => (m.run s as).map m.observe

variable {m} {s : σ}

theorem behaviour_cons {a : α} {as : List α} :
    m.behaviour s (a :: as) = (m.step s a).bind fun s' => m.behaviour s' as := by
  rw [behaviour, run, List.foldlM_cons]
  exact Option.map_bind

/-- **A state goes along with its behaviour.** -/
theorem step_behaviour {a : α} : (m.behaviour s).step a = (m.step s a).map m.behaviour := by
  have hcons : (fun as => m.behaviour s (a :: as)) =
      fun as => (m.step s a).bind fun s' => m.behaviour s' as := funext fun as => behaviour_cons
  rw [Behaviour.step, hcons, behaviour_cons]
  rcases m.step s a with _ | s'
  · rfl
  · rfl

/-- What is shown behind inputs is shown by the state they lead to. -/
theorem behaviour_eq_some {as : List α} {o : ο} (h : m.behaviour s as = some o) :
    ∃ s', m.run s as = some s' ∧ m.observe s' = o :=
  Option.map_eq_some_iff.mp h

end Machine
