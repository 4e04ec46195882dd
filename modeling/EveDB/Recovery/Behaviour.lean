import EveDB.Library.Behaviour
import EveDB.Recovery.Safety

/-!
# Recovery and what is shown

Two semantics that every engine has. In the finest one its views stand for themselves
(`Semantics.views`), which is all that matters as long as there is no checkpoint, for the view of a
manifest is made of other things than the one it was built of.

In the other one views stand for what is shown of them. An engine is a machine that takes
transactions (`Engine.machine`), and the state of a database is what it shows, now and behind every
list of transactions that may still be replayed (`Semantics.behaviours`). Of this semantics,
recovery means that the view it comes to shows the same as a new database would, on which everything
that is in the log has been replayed (`Reachable.recovers`).
-/

namespace EveDB

/-- What an engine makes of a transaction, if it does not refuse it. -/
def Engine.take (E : Engine) (v : E.View) (x : ℕ × Bytes) : Option E.View :=
  (E.replay v x.1 x.2).toOption

theorem Engine.take_eq_some {E : Engine} {v v' : E.View} {x : ℕ × Bytes} :
    E.take v x = some v' ↔ E.replay v x.1 x.2 = .ok v' := by
  unfold take
  generalize E.replay v x.1 x.2 = r
  rcases r with e | w
  · exact ⟨nofun, nofun⟩
  · exact ⟨fun h => congrArg Except.ok (Option.some.inj h),
      fun h => congrArg some (Except.ok.inj h)⟩

/-- **The semantics of views** that stand for themselves. -/
def Semantics.views (E : Engine) : Semantics E where
  State := E.View
  initial := E.load Root.empty
  exec v n p := E.take v (n, p)
  Denotes v v' := v = v'
  denotes_empty := rfl
  denotes_unique h h' := h.symm.trans h'
  replay_denotes := by
    rintro v _ n p v' rfl hexec
    exact ⟨v', Engine.take_eq_some.mp hexec, rfl⟩

theorem Semantics.denotes_views {E : Engine} (v : E.View) : (Semantics.views E).Denotes v v := rfl

/-- A log with one transaction is opened with the view that this comes to. -/
theorem open_singleton {E : Engine} {p : Bytes} {v : E.View} (hsize : p.length ≤ maxFrame)
    (h : E.replay (E.load Root.empty) 1 p = .ok v) :
    ∃ o, openWithOptions E (oneSegmentDirectory [p] 1) = .ok o ∧ o.view = v := by
  have hrun : (Semantics.views E).run (Semantics.views E).initial 0 [p] = some v :=
    Option.bind_eq_some_iff.mpr ⟨v, Engine.take_eq_some.mpr h, rfl⟩
  obtain ⟨o, hopen, -, -, -, -, hview, -⟩ := open_oneSegment (List.forall_mem_singleton.mpr hsize)
    (show 1 ≤ maxU64 by decide) (Nat.le_add_left 1 1) hrun
  exact ⟨o, hopen, hview⟩

/-- An engine takes transactions, with their sequences. -/
def Engine.machine (E : Engine) {ο : Type} (observe : E.View → ο) :
    Machine E.View (ℕ × Bytes) ο where
  step := E.take
  observe

/-- **The semantics of what is shown** of the views of an engine. -/
def Semantics.behaviours (E : Engine) {ο : Type} (observe : E.View → ο) : Semantics E where
  State := Behaviour (ℕ × Bytes) ο
  initial := (E.machine observe).behaviour (E.load Root.empty)
  exec b n p := b.step (n, p)
  Denotes v b := b = (E.machine observe).behaviour v
  denotes_empty := rfl
  denotes_unique h h' := h.trans h'.symm
  replay_denotes := by
    intro v b n p b' hb hexec
    rw [hb, Machine.step_behaviour] at hexec
    obtain ⟨v', hv', hb'⟩ := Option.map_eq_some_iff.mp hexec
    exact ⟨v', Engine.take_eq_some.mp hv', hb'.symm⟩

variable {E : Engine} {ο : Type} {observe : E.View → ο}

/-- A transaction that an engine takes is executed. -/
theorem Semantics.behaviours_replay {v v' : E.View} {n : ℕ} {p : Bytes}
    (h : E.replay v (n + 1) p = .ok v') : (Semantics.behaviours E observe).run
      ((E.machine observe).behaviour v) n [p] = some ((E.machine observe).behaviour v') := by
  refine Option.bind_eq_some_iff.mpr ⟨_, Machine.step_behaviour.trans ?_, rfl⟩
  exact Option.map_eq_some_iff.mpr ⟨v', Engine.take_eq_some.mpr h, rfl⟩

/-- Behind transactions there is the rest of a behaviour. -/
theorem Semantics.behaviours_run {b b' : Behaviour (ℕ × Bytes) ο} {n : ℕ} {ps : List Bytes}
    (h : (Semantics.behaviours E observe).run b n ps = some b') (as : List (ℕ × Bytes)) :
    b' as = b (numbered n ps ++ as) := by
  induction ps generalizing b n with
  | nil =>
    cases h
    rfl
  | cons p ps ih =>
    obtain ⟨b₁, hstep, hrun⟩ := Option.bind_eq_some_iff.mp h
    exact (ih hrun).trans (Behaviour.step_eq_some hstep _)

/-- **What is recovered shows what has been written.** In every state of every run the directory
opens, and its view shows what a new database does on which the transactions of the log have been
replayed, all that are acknowledged among them. -/
theorem Reachable.recovers {limits : WalLimits} {s : System (Semantics.behaviours E observe)}
    (hs : Reachable (Semantics.behaviours E observe) limits (fun _ _ => True) s) :
    ∃ o txs v, openWithOptions E s.dir = .ok o ∧ o.lsn = txs.length ∧
      (∀ x ∈ s.acked, x ∈ numbered 0 txs) ∧ (∀ x ∈ numbered 0 txs, x ∈ s.submitted) ∧
      (E.machine observe).run (E.load Root.empty) (numbered 0 txs) = some v ∧
      observe o.view = observe v := by
  obtain ⟨L, P, timeline, floor, hinv⟩ := Inv.reachable False (fun h => h.elim) hs
  obtain ⟨o, a, state, hopen, -, -, -, -, -, hlsn, hrun, hview, -⟩ := hinv.exists_open
  have hshown : (E.machine observe).behaviour (E.load Root.empty) (numbered 0 timeline) =
      some (observe o.view) := by
    have hrest := Semantics.behaviours_run hrun []
    rw [List.append_nil, show state = _ from hview] at hrest
    exact hrest.symm
  obtain ⟨v, hv, heq⟩ := Machine.behaviour_eq_some hshown
  exact ⟨o, timeline, v, hopen, hlsn, fun x hx => hinv.acked hx, hinv.submitted, hv, heq.symm⟩

end EveDB
