import Mathlib.Data.List.Basic

/-!
# Guarded computations

A computation that has to ask for admission on its way: the requests it makes, in order, and
what it returns when all of them are granted. Since nothing is learned from a grant but that it
was given, neither depends on who answers.

Somebody who answers requests is a step on a state of its own (`Guarded.run`). Whoever it is, a
run that succeeds returns what the computation returns by itself (`Guarded.result_of_run`);
and so does every run whose requests are all granted (`Guarded.Granted`).
-/

/-- A step on a state that may fail; the state is kept when it does. -/
def Fallible (ε σ α : Type) := σ → Except ε α × σ

namespace Fallible

variable {ε σ α β : Type}

/-- Runs the step. -/
def run (x : Fallible ε σ α) (s : σ) : Except ε α × σ := x s

instance : Monad (Fallible ε σ) where
  pure a := fun s => (.ok a, s)
  bind x f := fun s => match x s with
    | (.ok a, s') => f a s'
    | (.error e, s') => (.error e, s')

instance : MonadStateOf σ (Fallible ε σ) where
  get := fun s => (.ok s, s)
  set s := fun _ => (.ok (), s)
  modifyGet f := fun s => (.ok (f s).1, (f s).2)

/-- The step that leaves the state alone. -/
def lift (r : Except ε α) : Fallible ε σ α := fun s => (r, s)

/-- Runs a step, and keeps its error for later. -/
def attempt (x : Fallible ε σ α) : Fallible ε σ (Except ε α) := fun s =>
  (.ok (x.run s).1, (x.run s).2)

@[simp] theorem run_lift (r : Except ε α) (s : σ) : (lift r).run s = (r, s) := rfl

@[simp] theorem run_pure (a : α) (s : σ) : (pure a : Fallible ε σ α).run s = (.ok a, s) := rfl

@[simp] theorem run_get (s : σ) : (get : Fallible ε σ σ).run s = (.ok s, s) := rfl

@[simp] theorem run_modify (f : σ → σ) (s : σ) :
    (modify f : Fallible ε σ Unit).run s = (.ok (), f s) := rfl

theorem run_bind (x : Fallible ε σ α) (f : α → Fallible ε σ β) (s : σ) :
    (x >>= f).run s = match x.run s with
      | (.ok a, s') => (f a).run s'
      | (.error e, s') => (.error e, s') := rfl

/-- Behind a part that succeeds, the rest runs. -/
theorem run_bind_of_ok {x : Fallible ε σ α} {s s' : σ} {a : α} (h : x.run s = (.ok a, s'))
    (f : α → Fallible ε σ β) : (x >>= f).run s = (f a).run s' := by
  rw [run_bind, h]

/-- A part that fails is the last one. -/
theorem run_bind_of_error {x : Fallible ε σ α} {s s' : σ} {e : ε} (h : x.run s = (.error e, s'))
    (f : α → Fallible ε σ β) : (x >>= f).run s = (.error e, s') := by
  rw [run_bind, h]

/-- **A step that succeeded went through its first part.** -/
theorem run_bind_eq_ok {x : Fallible ε σ α} {f : α → Fallible ε σ β} {s s'' : σ} {b : β} :
    (x >>= f).run s = (.ok b, s'') ↔
      ∃ a s', x.run s = (.ok a, s') ∧ (f a).run s' = (.ok b, s'') := by
  rw [run_bind]
  rcases x.run s with ⟨_ | a, s'⟩ <;> simp

theorem exists_run_eq_ok {x : Fallible ε σ α} {s : σ} {a : α} (h : (x.run s).1 = .ok a) :
    ∃ s', x.run s = (.ok a, s') := ⟨(x.run s).2, Prod.ext h rfl⟩

/-- **A relation between the states before and after** that every outcome obeys. -/
def Keeps (P : σ → σ → Prop) (x : Fallible ε σ α) : Prop := ∀ s, P s (x.run s).2

namespace Keeps

variable {P : σ → σ → Prop} {x : Fallible ε σ α}

theorem of_run (h : Keeps P x) {s s' : σ} {r : Except ε α} (hrun : x.run s = (r, s')) : P s s' := by
  have := h s
  rwa [hrun] at this

theorem mono {Q : σ → σ → Prop} (h : Keeps P x) (hPQ : ∀ s s', P s s' → Q s s') : Keeps Q x :=
  fun s => hPQ _ _ (h s)

theorem bind (htrans : ∀ a b c, P a b → P b c → P a c) {f : α → Fallible ε σ β}
    (hx : Keeps P x) (hf : ∀ a, Keeps P (f a)) : Keeps P (x >>= f) := by
  intro s
  have hs := hx s
  rw [run_bind]
  rcases h : x.run s with ⟨_ | a, s'⟩
  · rwa [h] at hs
  · rw [h] at hs
    exact htrans _ _ _ hs (hf a s')

theorem lift (hrefl : ∀ s, P s s) (r : Except ε α) : Keeps P (Fallible.lift r : Fallible ε σ α) :=
  fun s => hrefl s

theorem pure (hrefl : ∀ s, P s s) (a : α) : Keeps P (Pure.pure a : Fallible ε σ α) :=
  fun s => hrefl s

theorem of_get (hrefl : ∀ s, P s s) : Keeps P (get : Fallible ε σ σ) := fun s => hrefl s

theorem of_modify {f : σ → σ} (h : ∀ s, P s (f s)) : Keeps P (modify f : Fallible ε σ Unit) :=
  fun s => h s

end Keeps

/-- **Where a step leads**: from a state with `p` to a result and a state with `q`, or to an error
and a state with `e`. -/
def Leads (p : σ → Prop) (x : Fallible ε σ α) (q : α → σ → Prop) (e : σ → Prop) : Prop :=
  ∀ s, p s → (∀ a s', x.run s = (.ok a, s') → q a s') ∧ ∀ err s', x.run s = (.error err, s') → e s'

namespace Leads

variable {p : σ → Prop} {q : α → σ → Prop} {e : σ → Prop} {x : Fallible ε σ α}

/-- Steps lead on. -/
theorem bind {f : α → Fallible ε σ β} {r : β → σ → Prop} (hx : Leads p x q e)
    (hf : ∀ a, Leads (q a) (f a) r e) : Leads p (x >>= f) r e := by
  intro s hs
  obtain ⟨hok, herror⟩ := hx s hs
  rw [run_bind]
  rcases hrun : x.run s with ⟨err | a, s'⟩
  · refine ⟨?_, ?_⟩
    · rintro _ _ ⟨⟩
    · rintro _ _ ⟨⟩
      exact herror err s' hrun
  · exact hf a s' (hok a s' hrun)

/-- What a step has found out is a hypothesis of what follows. -/
theorem bind_of {f : α → Fallible ε σ β} {r : α → Prop} {q : β → σ → Prop}
    (hx : Leads p x (fun a s => r a ∧ p s) e) (hf : ∀ a, r a → Leads p (f a) q e) :
    Leads p (x >>= f) q e :=
  hx.bind fun a s hs => hf a hs.1 s hs.2

theorem pure {a : α} (h : ∀ s, p s → q a s) : Leads p (Pure.pure a : Fallible ε σ α) q e := by
  refine fun s hs => ⟨?_, ?_⟩
  · rintro _ _ ⟨⟩
    exact h s hs
  · rintro _ _ ⟨⟩

theorem lift {r : Except ε α} (hok : ∀ a s, r = .ok a → p s → q a s) (herror : ∀ s, p s → e s) :
    Leads p (Fallible.lift r : Fallible ε σ α) q e := by
  refine fun s hs => ⟨?_, ?_⟩
  · rintro a _ h
    obtain ⟨hr, rfl⟩ := Prod.ext_iff.mp h
    exact hok a s hr hs
  · rintro _ _ h
    obtain ⟨-, rfl⟩ := Prod.ext_iff.mp h
    exact herror s hs

/-- A lifted result leads on when it is one. -/
theorem lift_bind {r : Except ε α} {f : α → Fallible ε σ β} {q : β → σ → Prop}
    (herror : ∀ s, p s → e s) (hf : ∀ a, r = .ok a → Leads p (f a) q e) :
    Leads p (Fallible.lift r >>= f) q e :=
  bind_of (.lift (fun _ _ hr hs => ⟨hr, hs⟩) herror) hf

/-- Looking at the state finds one that has been led to. -/
theorem get_bind {f : σ → Fallible ε σ β} {q : β → σ → Prop}
    (hf : ∀ s, p s → Leads p (f s) q e) : Leads p ((get : Fallible ε σ σ) >>= f) q e := by
  refine bind_of (r := p) (fun s hs => ⟨?_, ?_⟩) hf
  · rintro _ _ ⟨⟩
    exact ⟨hs, hs⟩
  · rintro _ _ ⟨⟩

theorem of_modify {f : σ → σ} {q : Unit → σ → Prop} (h : ∀ s, p s → q () (f s)) :
    Leads p (modify f : Fallible ε σ Unit) q e := by
  refine fun s hs => ⟨?_, ?_⟩
  · rintro _ _ ⟨⟩
    exact h s hs
  · rintro _ _ ⟨⟩

/-- What every outcome obeys, it obeys. -/
theorem of_keeps {P : σ → σ → Prop} (h : Keeps P x) (hq : ∀ s a s', p s → P s s' → q a s')
    (he : ∀ s s', p s → P s s' → e s') : Leads p x q e :=
  fun s hs => ⟨fun a s' hrun => hq s a s' hs (h.of_run hrun),
    fun _ s' hrun => he s s' hs (h.of_run hrun)⟩

/-- A weaker result. -/
theorem mono {q' : α → σ → Prop} (h : Leads p x q e) (hq : ∀ a s, q a s → q' a s) :
    Leads p x q' e :=
  fun s hs => ⟨fun a s' hrun => hq a s' ((h s hs).1 a s' hrun), (h s hs).2⟩

/-- A weaker failure. -/
theorem mono_error {e' : σ → Prop} (h : Leads p x q e) (he : ∀ s, e s → e' s) :
    Leads p x q e' :=
  fun s hs => ⟨(h s hs).1, fun err s' hrun => he s' ((h s hs).2 err s' hrun)⟩

/-- What leads on from each of some states leads on from all of them. -/
theorem of_exists {ι : Type} {p : ι → σ → Prop} (h : ∀ i, Leads (p i) x q e) :
    Leads (fun s => ∃ i, p i s) x q e := by
  rintro s ⟨i, hs⟩
  exact h i s hs

/-- What holds of all states that are led from is a hypothesis. -/
theorem of_and {r : Prop} (h : r → Leads p x q e) : Leads (fun s => r ∧ p s) x q e :=
  fun s hs => h hs.1 s hs.2

end Leads

/-- **One step simulates another** under a relation of their states: when the other succeeds, so
does the one, with a related result. -/
def Simulates (R : σ → σ → Prop) (Q : α → β → Prop) (x : Fallible ε σ α) (y : Fallible ε σ β) :
    Prop :=
  ∀ s t a s', R s t → x.run s = (.ok a, s') → ∃ b t', y.run t = (.ok b, t') ∧ Q a b ∧ R s' t'

namespace Simulates

variable {γ δ : Type} {R : σ → σ → Prop} {Q : α → β → Prop} {P : γ → δ → Prop}
  {x : Fallible ε σ α} {y : Fallible ε σ β}

/-- Simulation composes. -/
theorem bind {f : α → Fallible ε σ γ} {g : β → Fallible ε σ δ} (hxy : Simulates R Q x y)
    (hfg : ∀ a b, Q a b → Simulates R P (f a) (g b)) : Simulates R P (x >>= f) (y >>= g) := by
  intro s t c s' hst h
  obtain ⟨a, s₁, hx, hf⟩ := run_bind_eq_ok.mp h
  obtain ⟨b, t₁, hy, hab, hst₁⟩ := hxy s t a s₁ hst hx
  obtain ⟨d, t', hg, hcd, hst'⟩ := hfg a b hab s₁ t₁ c s' hst₁ hf
  exact ⟨d, t', run_bind_eq_ok.mpr ⟨b, t₁, hy, hg⟩, hcd, hst'⟩

theorem pure {a : α} {b : β} (h : Q a b) :
    Simulates R Q (Pure.pure a : Fallible ε σ α) (Pure.pure b) := by
  intro s t c s' hst hrun
  cases hrun
  exact ⟨b, t, rfl, h, hst⟩

/-- What succeeds on one side succeeds on the other. -/
theorem lift {r r' : Except ε α} (h : ∀ a, r = .ok a → r' = .ok a) :
    Simulates R Eq (Fallible.lift r) (Fallible.lift r') := by
  intro s t a s' hst hrun
  cases hrun
  exact ⟨a, t, by rw [run_lift, h a rfl], rfl, hst⟩

theorem of_get : Simulates R R (get : Fallible ε σ σ) get := by
  intro s t a s' hst hrun
  cases hrun
  exact ⟨t, t, rfl, hst, hst⟩

theorem of_modify {f g : σ → σ} (h : ∀ s t, R s t → R (f s) (g t)) :
    Simulates R Eq (modify f : Fallible ε σ Unit) (modify g) := by
  intro s t a s' hst hrun
  cases hrun
  exact ⟨(), g t, rfl, rfl, h s t hst⟩

end Simulates

end Fallible

/-- **A guarded computation**: its requests, and its result when they are granted. -/
structure Guarded (ρ ε α : Type) where
  requests : List ρ
  result : Except ε α

namespace Guarded

variable {ρ ε σ α β : Type}

/-- What follows a computation, unless it failed. -/
def bind (p : Guarded ρ ε α) (f : α → Guarded ρ ε β) : Guarded ρ ε β :=
  match p.result with
  | .ok a => ⟨p.requests ++ (f a).requests, (f a).result⟩
  | .error e => ⟨p.requests, .error e⟩

instance : Monad (Guarded ρ ε) where
  pure a := ⟨[], .ok a⟩
  bind := bind

/-- Asks for one admission. -/
def ask (r : ρ) : Guarded ρ ε Unit := ⟨[r], .ok ()⟩

/-- What needs no admission. -/
def lift (r : Except ε α) : Guarded ρ ε α := ⟨[], r⟩

@[simp] theorem result_pure (a : α) : (pure a : Guarded ρ ε α).result = .ok a := rfl

@[simp] theorem result_lift (r : Except ε α) : (lift r : Guarded ρ ε α).result = r := rfl

@[simp] theorem result_ask (r : ρ) : (ask r : Guarded ρ ε Unit).result = .ok () := rfl

@[simp] theorem result_bind (p : Guarded ρ ε α) (f : α → Guarded ρ ε β) :
    (p >>= f).result = p.result >>= fun a => (f a).result := by
  change (bind p f).result = _
  unfold bind
  cases p.result <;> rfl

/-- The result of a fold comes of the results of its steps. -/
theorem result_foldlM (f : β → α → Guarded ρ ε β) (l : List α) (b : β) :
    (l.foldlM f b).result = l.foldlM (fun b a => (f b a).result) b := by
  induction l generalizing b with
  | nil => rfl
  | cons a l ih =>
    rw [List.foldlM_cons, List.foldlM_cons, result_bind]
    exact congrArg _ (funext ih)

theorem lift_ok_bind (a : α) (f : α → Guarded ρ ε β) : lift (.ok a) >>= f = f a := rfl

variable (answer : ρ → Fallible ε σ Unit)

/-- Asks for one admission after the other. -/
def askAll : List ρ → Fallible ε σ Unit
  | [] => pure ()
  | r :: rs => do
    answer r
    askAll rs

/-- Runs the computation against somebody who answers its requests. -/
def run (p : Guarded ρ ε α) : Fallible ε σ α := do
  askAll answer p.requests
  Fallible.lift p.result

variable {answer}

/-- **A run that succeeds returns what the computation returns by itself.** -/
theorem result_of_run {p : Guarded ρ ε α} {s s' : σ} {a : α}
    (h : (p.run answer).run s = (.ok a, s')) : p.result = .ok a := by
  obtain ⟨_, t, -, hlift⟩ := Fallible.run_bind_eq_ok.mp h
  exact (Prod.ext_iff.mp hlift).1

/-- A run changes the state by its requests alone. -/
theorem askAll_of_run {p : Guarded ρ ε α} {s s' : σ} {a : α}
    (h : (p.run answer).run s = (.ok a, s')) : (askAll answer p.requests).run s = (.ok (), s') := by
  obtain ⟨_, t, hask, hlift⟩ := Fallible.run_bind_eq_ok.mp h
  obtain ⟨-, rfl⟩ := Prod.ext_iff.mp hlift
  exact hask

/-- What every answer keeps, a run keeps. -/
theorem keeps_run {P : σ → σ → Prop} (hrefl : ∀ s, P s s)
    (htrans : ∀ a b c, P a b → P b c → P a c) (hanswer : ∀ r, Fallible.Keeps P (answer r))
    (p : Guarded ρ ε α) : Fallible.Keeps P (p.run answer) := by
  have hall (rs : List ρ) : Fallible.Keeps P (askAll answer rs) := by
    induction rs with
    | nil => exact .pure hrefl ()
    | cons r rs ih => exact (hanswer r).bind htrans (fun _ => ih)
  exact (hall p.requests).bind htrans (fun _ => .lift hrefl p.result)

/-- A run simulates another one when its answers do. -/
theorem simulates_run {R : σ → σ → Prop} {answer' : ρ → Fallible ε σ Unit}
    (h : ∀ r, Fallible.Simulates R Eq (answer r) (answer' r)) (p : Guarded ρ ε α) :
    Fallible.Simulates R Eq (p.run answer) (p.run answer') := by
  have hall (rs : List ρ) : Fallible.Simulates R Eq (askAll answer rs) (askAll answer' rs) := by
    induction rs with
    | nil => exact .pure rfl
    | cons r rs ih => exact (h r).bind fun _ _ _ => ih
  exact (hall p.requests).bind fun _ _ _ => .lift fun _ h => h

/-- A run that fails was refused a request, or the computation fails by itself. -/
theorem error_of_run {p : Guarded ρ ε α} {s s' : σ} {e : ε}
    (h : (p.run answer).run s = (.error e, s')) :
    ((askAll answer p.requests).run s).1 = .error e ∨ p.result = .error e := by
  rw [run, Fallible.run_bind] at h
  rcases hask : (askAll answer p.requests).run s with ⟨e' | u, t⟩
  · rw [hask] at h
    cases h
    exact Or.inl rfl
  · rw [hask] at h
    exact Or.inr (Prod.ext_iff.mp h).1

/-- **All requests of the computation are granted**, one after the other, from a state on. -/
def Granted (answer : ρ → Fallible ε σ Unit) (p : Guarded ρ ε α) (s : σ) : Prop :=
  ((askAll answer p.requests).run s).1 = .ok ()

/-- **A run whose requests are all granted returns what the computation does.** -/
theorem Granted.run {p : Guarded ρ ε α} {s : σ} (h : p.Granted answer s) :
    ((p.run answer).run s).1 = p.result := by
  obtain ⟨s', hask⟩ := Fallible.exists_run_eq_ok h
  rw [Guarded.run, Fallible.run_bind_of_ok hask]
  rfl

/-! ### What is returned when requests are granted -/

theorem requests_bind_of_ok {p : Guarded ρ ε α} {a : α} (h : p.result = .ok a)
    (f : α → Guarded ρ ε β) : (p >>= f).requests = p.requests ++ (f a).requests := by
  change (bind p f).requests = _
  unfold bind
  rw [h]

/-- **What a computation returns when all its requests have a property**, as they do when they have
been granted. -/
def Yields (P : ρ → Prop) (p : Guarded ρ ε α) (Q : α → Prop) : Prop :=
  (∀ r ∈ p.requests, P r) → ∀ a, p.result = .ok a → Q a

namespace Yields

variable {P : ρ → Prop} {Q : β → Prop} {R : α → Prop} {p : Guarded ρ ε α}

theorem bind {f : α → Guarded ρ ε β} (hp : Yields P p R) (hf : ∀ a, R a → Yields P (f a) Q) :
    Yields P (p >>= f) Q := by
  intro hrequests b hb
  rw [result_bind] at hb
  cases ha : p.result with
  | error e =>
    rw [ha] at hb
    cases hb
  | ok a =>
    rw [ha] at hb
    rw [requests_bind_of_ok ha, List.forall_mem_append] at hrequests
    exact hf a (hp hrequests.1 a ha) hrequests.2 b hb

/-- A request that has been granted has the property. -/
theorem ask (r : ρ) : Yields P (ask r : Guarded ρ ε Unit) fun _ => P r := by
  rintro hrequests _ -
  exact hrequests r (List.mem_singleton_self r)

theorem lift {r : Except ε α} (h : ∀ a, r = .ok a → R a) :
    Yields P (lift r : Guarded ρ ε α) R := fun _ => h

theorem pure {a : α} (h : R a) : Yields P (pure a : Guarded ρ ε α) R := by
  rintro - _ ⟨⟩
  exact h

/-- **So a run that succeeds returns**, when what is granted has the property. -/
theorem of_run (h : Yields P p R)
    (hgrant : ∀ r s s', (answer r).run s = (.ok (), s') → P r) {s s' : σ} {a : α}
    (hrun : (p.run answer).run s = (.ok a, s')) : R a := by
  have hall (rs : List ρ) : ∀ s, (askAll answer rs).run s = (.ok (), s') → ∀ r ∈ rs, P r := by
    induction rs with
    | nil => exact fun _ _ => List.forall_mem_nil _
    | cons r rs ih =>
      intro s hask
      obtain ⟨_, t, hr, hrest⟩ := Fallible.run_bind_eq_ok.mp hask
      exact List.forall_mem_cons.mpr ⟨hgrant r s t hr, ih t hrest⟩
  exact h (hall _ s (askAll_of_run hrun)) a (result_of_run hrun)

end Yields

end Guarded
