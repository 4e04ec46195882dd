import EveDB.Shared.Steps
import EveDB.Recovery.Safety

/-!
# The first committer wins

Two transactions that both commit and have written a common entity are in order: the
later one began with a view that has the earlier one in it. A transaction that changed
the catalog is in the view of everything committed behind it.

The coordinator finds this out by comparing sequences, and it forgets: revisions are
dropped as soon as no live view is older. What makes this safe is that a view is live
from before the moment it is copied from the published one until its transaction has its
answer; so an entry is either still remembered, or in every view that something can still
be committed against (`Shared.Remembers`). Members of one group are validated against a
placeholder above every sequence, which no base reaches while there are sequences left.
-/

namespace EveDB

variable {E : Engine} {S : Semantics E}

/-! ### The live views -/

/-- The views something can still be committed against, now or later: the published one
as well. -/
def Shared.views (s : Shared S) : List (View S) :=
  s.current :: (s.pinning ++ s.registered)

theorem Shared.mem_views {s : Shared S} {v : View S} :
    v ∈ s.views ↔ v = s.current ∨ v ∈ s.pinning ∨ v ∈ s.pins ∨
      (∃ b ∈ s.staging, b.base = v) ∨ (∃ b ∈ s.queue.waiting, b.base = v) ∨
        ∃ b ∈ s.lock.accepted, b.base = v := by
  simp only [views, registered, List.mem_cons, List.mem_append, List.mem_map]
  grind

/-- **No step makes a view** other than the one of the state the database has. -/
theorem Shared.Step.views {limits : Limits} {s s' : Shared S} (h : Shared.Step limits s s')
    {v : View S} (hv : v ∈ s'.views) :
    v ∈ s.views ∨ ∃ h', s'.system.handle = some h' ∧ v = h'.view := by
  have hview {a : Action} {h : Handle S} {system : System S}
      (hsystem : EveDB.Step S limits.wal s.system a system) (ha : a.Keeps)
      (hh : s.system.handle = some h) : ∃ h', system.handle = some h' ∧ h.view = h'.view := by
    obtain ⟨h₀, h', hh₀, hh', hlsn, hstate, -⟩ := hsystem.keeps ha
    obtain rfl : h₀ = h := Option.some.inj (hh₀.symm.trans hh)
    exact ⟨h', hh', by simp only [Handle.view, hlsn, hstate]⟩
  rw [Shared.mem_views] at hv
  cases h with
  | pin h hh =>
    refine Or.inl (Shared.mem_views.mpr ?_)
    simp only [List.mem_cons] at hv
    grind
  | register v' l₁ l₂ hl =>
    refine Or.inl (Shared.mem_views.mpr ?_)
    simp only [hl, List.mem_cons, List.mem_append] at hv ⊢
    grind
  | unpin v' l₁ l₂ hl =>
    refine Or.inl (Shared.mem_views.mpr ?_)
    simp only [hl, List.mem_cons, List.mem_append] at hv ⊢
    grind
  | begin v' l₁ l₂ b hmode hl hid hbase =>
    refine Or.inl (Shared.mem_views.mpr ?_)
    simp only [hl, List.mem_cons, List.mem_append, exists_eq_or_imp, hbase] at hv ⊢
    have : v' = v → v = v' := Eq.symm
    grind
  | beginLocal h b hh ready hmode hlock hstaging hid hbase =>
    simp only [List.mem_cons, exists_eq_or_imp, hbase] at hv
    rcases hv with h₁ | h₁ | h₁ | (rfl | h₁) | h₁
    · exact Or.inl (Shared.mem_views.mpr (Or.inl h₁))
    · exact Or.inl (Shared.mem_views.mpr (by grind))
    · exact Or.inl (Shared.mem_views.mpr (by grind))
    · exact Or.inr ⟨h, hh, rfl⟩
    · exact Or.inl (Shared.mem_views.mpr (by grind))
    · exact Or.inl (Shared.mem_views.mpr (by grind))
  | stage b b' l₁ l₂ hl hid hbase =>
    refine Or.inl (Shared.mem_views.mpr ?_)
    simp only [hl, List.mem_cons, List.mem_append, or_and_right, exists_or, exists_eq_left,
      hbase] at hv ⊢
    exact hv
  | abort b l₁ l₂ hl | refuse h b l₁ l₂ reading answer hh hl
  | commitLocal h b l₁ l₂ reading queue hh hmode hlock hl =>
    refine Or.inl (Shared.mem_views.mpr ?_)
    simp only [hl, List.mem_cons, List.mem_append, or_and_right, exists_or, exists_eq_left,
      Lock.accepted, List.not_mem_nil, or_false] at hv ⊢
    grind
  | submit h b l₁ l₂ reading queue hh hmode hl henqueue =>
    rw [hmode] at henqueue
    refine Or.inl (Shared.mem_views.mpr ?_)
    simp only [hl, (waiting_of_enqueue henqueue).1, List.mem_cons, List.mem_append, or_and_right,
      exists_or, exists_eq_left, List.not_mem_nil, or_false] at hv ⊢
    grind
  | cancel b hb =>
    refine Or.inl (Shared.mem_views.mpr ?_)
    dsimp only at hv
    have hsub : ∀ b' ∈ (s.queue.cancel b).waiting, b' ∈ s.queue.waiting :=
      fun b' hb' => (List.mem_filter.mp hb').1
    grind
  | claim h expired accepted completed hh hmode hlock hvalid =>
    refine Or.inl (Shared.mem_views.mpr ?_)
    have hsub := (Coordinator.validateGroup_spec hvalid (by simp)).1.subset
    have hclaim {b : Prepared S} (hb : b ∈ s.queue.claim limits.group) :
        b ∈ s.queue.waiting := List.mem_of_mem_take hb
    have hrest {b : Prepared S} (hb : b ∈ (s.queue.rest limits.group).waiting) :
        b ∈ s.queue.waiting := List.mem_of_mem_drop hb
    dsimp only [Lock.accepted] at hv
    rcases hv with h₁ | h₁ | h₁ | h₁ | ⟨b, hb, hbase⟩ | ⟨b, hb, hbase⟩
    · exact Or.inl h₁
    · grind
    · grind
    · grind
    · have := hrest hb
      grind
    · have := hclaim (hsub hb)
      grind
  | reject | write | writeFailed | finish | intoShared | crash =>
    refine Or.inl (Shared.mem_views.mpr ?_)
    simp only [Lock.accepted, Queue.waiting_finish, apply_ite Queue.waiting, ite_self,
      List.not_mem_nil, false_and, exists_false, or_false, false_or] at hv
    grind
  | publish h answers completed before hh hlock =>
    rcases hv with rfl | hv
    · exact Or.inr ⟨h, hh, rfl⟩
    · refine Or.inl (Shared.mem_views.mpr (Or.inr ?_))
      simpa only [hlock, Lock.accepted] using hv
  | maintain | installFailed => exact Or.inl (Shared.mem_views.mpr hv)
  | install h system hh hmode hlock hpinning hsystem =>
    rcases hv with rfl | hv
    · exact Or.inr (hview hsystem trivial hh)
    · refine Or.inl (Shared.mem_views.mpr (Or.inr ?_))
      simpa only [hlock, Lock.accepted] using hv
  | installLocal h system hh hmode hlock hpinning hsystem =>
    rcases hv with rfl | hv
    · exact Or.inr (hview hsystem trivial hh)
    · exact Or.inl (Shared.mem_views.mpr (Or.inr hv))
  | lookup h hh hlock | prune oldest hlock =>
    refine Or.inl (Shared.mem_views.mpr ?_)
    simpa only [hlock, Lock.accepted] using hv
  | reopen h system hsystem hh =>
    rcases hv with rfl | hv
    · exact Or.inr ⟨h, hh, rfl⟩
    · exact Or.inl (Shared.mem_views.mpr (Or.inr hv))

/-- **What is true of the views** while the database is open. -/
structure Shared.Viewed (s : Shared S) (h : Handle S) : Prop where
  /-- No view is ahead of the database. -/
  le : ∀ v ∈ s.views, v.lsn ≤ h.lsn
  /-- A copy that is being registered keeps the published view in place. -/
  pinning : ∀ v ∈ s.pinning, v = s.current
  /-- The published view falls behind only between the write and the publication. -/
  current : (∀ answers completed before, s.lock ≠ .written answers completed before) →
    s.current = h.view
  /-- What the pruning goes by is no later than any live view. -/
  pruning : ∀ oldest, s.lock = .pruning oldest → ∀ v ∈ s.views, oldest ≤ v.lsn

/-- The oldest registered view bounds all of them. -/
theorem Shared.oldestSequence_le {s : Shared S} {h : Handle S} (hs : s.Viewed h)
    (hcurrent : s.current = h.view) {v : View S} (hv : v ∈ s.views) :
    s.oldestSequence.getD h.lsn ≤ v.lsn := by
  have hold : s.oldestSequence.getD h.lsn ≤ h.lsn := by
    cases hm : s.oldestSequence with
    | none => exact le_rfl
    | some m =>
      obtain ⟨v', hv', rfl⟩ := List.mem_map.mp (List.min?_mem hm)
      exact hs.le v' (List.mem_cons_of_mem _ (List.mem_append_right _ hv'))
  rcases List.mem_cons.mp hv with rfl | hv
  · rw [hcurrent]
    exact hold
  rcases List.mem_append.mp hv with hv | hv
  · rw [hs.pinning v hv, hcurrent]
    exact hold
  · have hmem : v.lsn ∈ s.registered.map View.lsn := List.mem_map_of_mem hv
    cases hm : s.oldestSequence with
    | none => simp [List.min?_eq_none_iff.mp hm] at hmem
    | some m => exact (List.min?_eq_some_iff.mp hm).2 _ hmem

/-- The sequence of the database never falls while it is open. -/
theorem Shared.Step.lsn_le {limits : Limits} {s s' : Shared S} (hstep : Shared.Step limits s s')
    {h h' : Handle S} (hh : s.system.handle = some h) (hh' : s'.system.handle = some h') :
    h.lsn ≤ h'.lsn ∧ (h'.view = h.view ∨ ∃ answers completed before,
      s'.lock = .written answers completed before) := by
  have hkeeps {a : Action} {system : System S}
      (hsystem : EveDB.Step S limits.wal s.system a system) (ha : a.Keeps)
      (hh' : system.handle = some h') : h.lsn ≤ h'.lsn ∧ h'.view = h.view := by
    obtain ⟨h₀, h₁, hh₀, hh₁, hlsn, hstate, -⟩ := hsystem.keeps ha
    obtain rfl : h₀ = h := Option.some.inj (hh₀.symm.trans hh)
    obtain rfl : h₁ = h' := Option.some.inj (hh₁.symm.trans hh')
    exact ⟨hlsn.ge, by simp only [Handle.view, hlsn, hstate]⟩
  have hsame (hh' : s.system.handle = some h') : h.lsn ≤ h'.lsn ∧ h'.view = h.view := by
    obtain rfl : h = h' := Option.some.inj (hh.symm.trans hh')
    exact ⟨le_rfl, rfl⟩
  cases hstep with
  | write h₀ accepted active completed answers before readings system _ _ _ _ _ hsystem =>
    obtain ⟨h₁, h₂, hh₁, hh₂, -, -, hlsn, -⟩ := hsystem.commit_ok
    obtain rfl : h₁ = h := Option.some.inj (hh₁.symm.trans hh)
    obtain rfl : h₂ = h' := Option.some.inj (hh₂.symm.trans hh')
    exact ⟨hlsn ▸ Nat.le_add_right _ _, Or.inr ⟨_, _, _, rfl⟩⟩
  | writeFailed _ _ _ _ _ _ _ _ _ _ _ _ _ _ _ _ hsystem =>
    exact (hkeeps hsystem trivial hh').imp id Or.inl
  | maintain a system ha hsystem => exact (hkeeps hsystem ha.keeps hh').imp id Or.inl
  | install _ _ _ _ _ _ hsystem => exact (hkeeps hsystem trivial hh').imp id Or.inl
  | installLocal _ _ _ _ _ _ hsystem => exact (hkeeps hsystem trivial hh').imp id Or.inl
  | installFailed _ _ _ hsystem => exact (hkeeps hsystem trivial hh').imp id Or.inl
  | crash length system hsystem => simp [hsystem.crash_handle.1] at hh'
  | reopen h₀ system hsystem => simp [hsystem.reopen_handle.1] at hh
  | _ => exact (hsame hh').imp id Or.inl

/-- **A step keeps the facts about the views.** -/
theorem Shared.Viewed.step {limits : Limits} {s s' : Shared S} (hstep : Shared.Step limits s s')
    {h h' : Handle S} (hh : s.system.handle = some h) (hh' : s'.system.handle = some h')
    (hs : s.Viewed h) : s'.Viewed h' := by
  obtain ⟨hlsn, hmoved⟩ := hstep.lsn_le hh hh'
  have hviews : ∀ v ∈ s'.views, v ∈ s.views ∨ v = h'.view := by
    intro v hv
    refine (hstep.views hv).imp id fun ⟨h₁, hh₁, heq⟩ => ?_
    rw [heq, Option.some.inj (hh₁.symm.trans hh')]
  have hle : ∀ v ∈ s'.views, v.lsn ≤ h'.lsn := by
    intro v hv
    rcases hviews v hv with hv | rfl
    · exact (hs.le v hv).trans hlsn
    · exact le_rfl
  refine ⟨hle, ?_, fun hne => ?_, fun oldest hpruning v hv => ?_⟩
  · cases hstep with
    | pin => simpa using hs.pinning
    | register v l₁ l₂ hl =>
      intro v' hv'
      refine hs.pinning v' ?_
      rw [hl]
      simp only [List.mem_append, List.mem_cons] at hv' ⊢
      tauto
    | publish _ _ _ _ _ _ hnil | install _ _ _ _ _ hnil | installLocal _ _ _ _ _ hnil =>
      simp [hnil]
    | crash => simp
    | reopen h₀ system hsystem => simp [hsystem.reopen_handle.1] at hh
    | _ => exact hs.pinning
  · -- either the published view is new, or neither it nor the database has moved
    have hview := hmoved.resolve_right fun ⟨answers, completed, before, hlock⟩ =>
      hne answers completed before hlock
    have hold (hlock : ∀ answers completed before, s.lock ≠ .written answers completed before) :
        s.current = h'.view := (hs.current hlock).trans hview.symm
    cases hstep with
    | publish h₀ _ _ _ hh₀ | install h₀ _ hh₀ | installLocal h₀ _ hh₀ =>
      obtain rfl : h₀ = h := Option.some.inj (hh₀.symm.trans hh)
      exact hview.symm
    | claim _ _ _ _ _ _ hlock | commitLocal _ _ _ _ _ _ _ _ hlock | reject _ _ _ _ _ _ _ hlock
    | writeFailed _ _ _ _ _ _ _ _ _ _ _ _ hlock | finish _ _ _ _ _ hlock | lookup _ _ hlock
    | prune _ hlock =>
      exact hold fun _ _ _ heq => by simp [hlock] at heq
    | write => exact (hne _ _ _ rfl).elim
    | crash length system hsystem => simp [hsystem.crash_handle.1] at hh'
    | reopen h₀ system hsystem => simp [hsystem.reopen_handle.1] at hh
    | _ => exact hold hne
  · have hkept (hlock : s.lock = .pruning oldest) : oldest ≤ v.lsn := by
      rcases hviews v hv with hv | rfl
      · exact hs.pruning oldest hlock v hv
      · refine (hs.pruning oldest hlock s.current List.mem_cons_self).trans ?_
        exact (hs.le _ List.mem_cons_self).trans hlsn
    cases hstep with
    | lookup h₀ hh₀ hlock =>
      obtain rfl : h₀ = h := Option.some.inj (hh₀.symm.trans hh)
      cases hpruning
      have hcurrent := hs.current fun _ _ _ heq => by simp [hlock] at heq
      rcases hviews v hv with hv | rfl
      · exact Shared.oldestSequence_le hs hcurrent hv
      · have := Shared.oldestSequence_le hs hcurrent (List.mem_cons_self (l := _))
        rw [hcurrent] at this
        exact this.trans hlsn
    | claim | commitLocal | reject | write | writeFailed | publish | finish | install | prune
    | crash => cases hpruning
    | _ => exact hkept hpruning

/-- The facts about the views hold when a database is opened. -/
theorem Shared.Viewed.opened {s : Shared S} {h : Handle S} (hs : s.Idle) {system : System S} :
    ({ s with system, current := h.view, sharedMode := false } : Shared S).Viewed h := by
  have hviews : ({ s with system, current := h.view, sharedMode := false } : Shared S).views =
      [h.view] := by
    simp [Shared.views, Shared.registered, hs.pinning, hs.pins, hs.staging, hs.waiting, hs.lock,
      Lock.accepted]
  refine ⟨fun v hv => ?_, by simp [hs.pinning], fun _ => rfl, fun oldest hpruning => ?_⟩
  · rw [hviews, List.mem_singleton] at hv
    rw [hv]
    exact le_rfl
  · simp [hs.lock] at hpruning

/-- **The facts about the views** hold in every state of every run. -/
theorem Shared.Reachable.viewed {limits : Limits} {s : Shared S}
    (hs : Shared.Reachable S limits s) {h : Handle S} (hh : s.system.handle = some h) :
    s.Viewed h := by
  induction hs generalizing h with
  | initial => cases hh
  | @step s s' hs hstep ih =>
    cases hbefore : s.system.handle with
    | some h₀ => exact (ih hbefore).step hstep hbefore hh
    | none =>
      obtain ⟨system, -, rfl⟩ := hstep.of_none hbefore hh
      exact .opened (hs.idle hbefore)

/-! ### What the coordinator remembers -/

/-- The second transaction has been committed behind the first, and with it in its view
if they share an entity or the first changed the catalog. -/
def Follows (c d : Prepared S × ℕ) : Prop :=
  c.2 < d.2 ∧
    ((∃ key ∈ c.1.keys, key ∈ d.1.keys) ∨ c.1.changesCatalog = true → c.2 ≤ d.1.base.lsn)

/-- A commit is still remembered where a view may have missed it. -/
structure Shared.Remembers (s : Shared S) (c : Prepared S × ℕ) : Prop where
  keys : ∀ key ∈ c.1.keys, (∃ r, s.coordinator.revisions[key]? = some r ∧ c.2 ≤ r) ∨
    ∀ v ∈ s.views, c.2 ≤ v.lsn
  catalog : c.1.changesCatalog = true → c.2 ≤ s.coordinator.catalogRevision

/-- A transaction has passed validation against a commit. -/
def Passed (c : Prepared S × ℕ) (b : Prepared S) : Prop :=
  (∃ key ∈ c.1.keys, key ∈ b.keys) ∨ c.1.changesCatalog = true →
    c.2 ≤ b.base.lsn ∨ maxU64 ≤ b.base.lsn

/-- **The order of the commits, and what keeps it**, in a shared database. -/
structure Shared.Serial (s : Shared S) (h : Handle S) : Prop where
  follows : s.committed.Pairwise Follows
  le : ∀ c ∈ s.committed, c.2 ≤ h.lsn
  /-- The commits of the group that has just been written are recorded with its answers. -/
  remembered : ∀ c ∈ s.committed, (c.1, .ok c.2) ∈ s.lock.answers ∨ s.Remembers c
  pending : ∀ x ∈ s.lock.answers, ∀ n, x.2 = .ok n → (x.1, n) ∈ s.committed ∧
    ∀ c ∈ s.committed, (c.1, .ok c.2) ∈ s.lock.answers ∨ c.2 ≤ n
  ascending : Coordinator.Ascending s.lock.answers
  waiting : ∀ b ∈ s.queue.waiting, b.isEmpty = false
  accepted : ∀ b ∈ s.lock.accepted, b.isEmpty = false ∧ ∀ c ∈ s.committed, Passed c b
  apart : s.lock.accepted.Pairwise Coordinator.Apart
  completed : ∀ x ∈ s.lock.completed, ∃ e, x.2 = .error e
  /-- Whoever has been told of a success has committed. -/
  answered : ∀ x ∈ s.results, ∀ n, x.2 = .ok n → s.firstShared ≤ x.1.id →
    x.1.isEmpty = false → (x.1, n) ∈ s.committed

namespace Shared.Serial

variable {s s' : Shared S} {h h' : Handle S}

/-- A commit stays remembered while no view goes back. -/
theorem remembers (hs : s.Serial h) (hviews : ∀ v ∈ s'.views, v ∈ s.views ∨ h.lsn ≤ v.lsn)
    (hcoordinator : s'.coordinator = s.coordinator) {c : Prepared S × ℕ}
    (hc : c ∈ s.committed) (hr : s.Remembers c) : s'.Remembers c := by
  refine ⟨fun key hkey => ?_, fun hcat => ?_⟩
  · rw [hcoordinator]
    refine (hr.keys key hkey).imp id fun hle v hv => ?_
    rcases hviews v hv with hv | hv
    · exact hle v hv
    · exact (hs.le c hc).trans hv
  · rw [hcoordinator]
    exact hr.catalog hcat

/-- A step keeps the order when it commits nothing, records nothing and answers only with
errors and to empty transactions. -/
theorem shuffle (hs : s.Serial h) (hlsn : h.lsn ≤ h'.lsn)
    (hviews : ∀ v ∈ s'.views, v ∈ s.views ∨ h.lsn ≤ v.lsn)
    (hcoordinator : s'.coordinator = s.coordinator) (hcommitted : s'.committed = s.committed)
    (hfirst : s'.firstShared = s.firstShared) (hanswers : s'.lock.answers = s.lock.answers)
    (haccepted : s'.lock.accepted = s.lock.accepted)
    (hcompleted : s'.lock.completed = s.lock.completed)
    (hwaiting : ∀ b ∈ s'.queue.waiting, b ∈ s.queue.waiting ∨ b.isEmpty = false)
    (hresults : ∀ x ∈ s'.results, x ∈ s.results ∨ (∃ e, x.2 = .error e) ∨ x.1.isEmpty = true) :
    s'.Serial h' where
  follows := hcommitted ▸ hs.follows
  le c hc := (hs.le c (hcommitted ▸ hc)).trans hlsn
  remembered c hc := by
    rw [hcommitted] at hc
    rw [hanswers]
    exact (hs.remembered c hc).imp id (hs.remembers hviews hcoordinator hc)
  pending := by
    rw [hanswers, hcommitted]
    exact hs.pending
  ascending := hanswers ▸ hs.ascending
  waiting b hb := (hwaiting b hb).elim (hs.waiting b) id
  accepted := by
    rw [haccepted, hcommitted]
    exact hs.accepted
  apart := haccepted ▸ hs.apart
  completed := hcompleted ▸ hs.completed
  answered x hx n hn hfrom hne := by
    rw [hcommitted]
    rcases hresults x hx with hx | ⟨e, he⟩ | hempty
    · exact hs.answered x hx n hn (hfirst ▸ hfrom) hne
    · rw [he] at hn
      cases hn
    · rw [hempty] at hne
      cases hne

/-- The views of the next state are not behind the database of this one. -/
theorem views_of_step {limits : Limits} (hstep : Shared.Step limits s s')
    (hh : s.system.handle = some h) (hh' : s'.system.handle = some h') {v : View S}
    (hv : v ∈ s'.views) : v ∈ s.views ∨ h.lsn ≤ v.lsn := by
  rcases hstep.views hv with hv | ⟨h₁, hh₁, rfl⟩
  · exact Or.inl hv
  · rw [Option.some.inj (hh₁.symm.trans hh')]
    exact Or.inr (hstep.lsn_le hh hh').1

/-- **A claimed group** has passed validation against everything committed. -/
theorem claim (hs : s.Serial h) (hlock : s.lock = .free) {poisoned : Bool} {expired : ℕ → Bool}
    {batches : List (Prepared S)} (hbatches : ∀ b ∈ batches, b ∈ s.queue.waiting)
    {accepted : List (Prepared S)} {completed : List (Prepared S × Result ℕ)}
    (hvalid : s.coordinator.validateGroup poisoned expired ∅ s.coordinator.catalogRevision
      batches = (accepted, completed)) :
    (∀ b ∈ accepted, b.isEmpty = false ∧ ∀ c ∈ s.committed, Passed c b) ∧
      accepted.Pairwise Coordinator.Apart ∧ ∀ x ∈ completed, ∃ e, x.2 = .error e := by
  obtain ⟨hsub, hcat, hkeys, hapart⟩ := Coordinator.validateGroup_spec hvalid (by simp)
  refine ⟨fun b hb => ?_, hapart, fun x hx => ?_⟩
  · have hwaiting := hbatches b (hsub.subset hb)
    refine ⟨hs.waiting b hwaiting, fun c hc hshare => ?_⟩
    have hr : s.Remembers c := by
      refine (hs.remembered c hc).resolve_left fun hmem => ?_
      simp [hlock, Lock.answers] at hmem
    rcases hshare with ⟨key, hkey, hkey'⟩ | hchange
    · rcases hr.keys key hkey with ⟨r, hrev, hle⟩ | hall
      · refine (hkeys b hb key hkey' r ?_).imp hle.trans id
        simpa [Coordinator.revision] using hrev
      · exact Or.inl (hall b.base (Shared.mem_views.mpr (by grind)))
    · exact (hcat b hb).imp (hr.catalog hchange).trans id
  · obtain ⟨e, he, -⟩ := (Coordinator.validateGroup_perm hvalid).2 x hx
    exact ⟨e, he⟩

/-- Members that are apart follow each other, under sequences that count them. -/
theorem follows_zipIdx {active : List (Prepared S)} (hapart : active.Pairwise Coordinator.Apart)
    (hbase : ∀ b ∈ active, ¬ maxU64 ≤ b.base.lsn) (n : ℕ) :
    (active.zipIdx n).Pairwise Follows := by
  induction active generalizing n with
  | nil => exact List.Pairwise.nil
  | cons b active ih =>
    obtain ⟨hb, hapart⟩ := List.pairwise_cons.mp hapart
    rw [List.zipIdx_cons]
    refine List.pairwise_cons.mpr ⟨fun d hd => ?_,
      ih hapart (fun b' hb' => hbase b' (List.mem_cons_of_mem b hb')) (n + 1)⟩
    obtain ⟨hle, -, hmem⟩ := List.mem_zipIdx hd
    have hd' : d.1 ∈ active := hmem ▸ List.getElem_mem _
    exact ⟨hle, fun hshare => absurd (hb d.1 hd' hshare) (hbase d.1 (List.mem_cons_of_mem b hd'))⟩

/-- **The members of a written group** follow everything committed, and each other. -/
theorem follows_written (hs : s.Serial h) {active : List (Prepared S)}
    (hsub : active.Sublist s.lock.accepted) (hviews : ∀ v ∈ s.views, v.lsn ≤ h.lsn)
    (hlsn : h.lsn + active.length ≤ maxU64) (hne : active ≠ []) :
    (s.committed ++ active.zipIdx (h.lsn + 1)).Pairwise Follows := by
  have hlt : h.lsn < maxU64 := by
    have := List.length_pos_iff.mpr hne
    omega
  -- no base is at the largest sequence, where validation compares nothing
  have hbase : ∀ b ∈ s.lock.accepted, ¬ maxU64 ≤ b.base.lsn := fun b hb hmax => by
    have := hviews b.base (Shared.mem_views.mpr (by grind))
    omega
  refine List.pairwise_append.mpr ⟨hs.follows, ?_, fun c hc d hd => ?_⟩
  · exact follows_zipIdx (hs.apart.sublist hsub) (fun b hb => hbase b (hsub.subset hb)) _
  · obtain ⟨hle, -, hmem⟩ := List.mem_zipIdx hd
    have hd' : d.1 ∈ s.lock.accepted := hsub.subset (hmem ▸ List.getElem_mem _)
    refine ⟨(Nat.lt_succ_of_le (hs.le c hc)).trans_le hle, fun hshare => ?_⟩
    exact ((hs.accepted d.1 hd').2 c hc hshare).resolve_right (hbase d.1 hd')

/-- The answers of a written group are its members with their sequences. -/
theorem mem_answers_written {answers : List (Prepared S × Result ℕ)} {active : List (Prepared S)}
    {lsn : ℕ} (herror : ∀ x ∈ answers, ∃ e, x.2 = .error e) {b : Prepared S} {n : ℕ} :
    (b, .ok n) ∈ answers ++ published lsn active ↔ (b, n) ∈ active.zipIdx (lsn + 1) := by
  rw [List.mem_append, published_eq, List.mem_map]
  constructor
  · rintro (h | ⟨x, hx, heq⟩)
    · obtain ⟨e, he⟩ := herror _ h
      cases he
    · cases heq
      exact hx
  · exact fun h => Or.inr ⟨_, h, rfl⟩

/-- Members answered before the write have failed: none of them is empty. -/
theorem error_of_unwritten (hs : s.Serial h) {answers : List (Prepared S × Result ℕ)}
    (hunwritten : ∀ x ∈ answers, Unwritten x) (hmem : ∀ x ∈ answers, x.1 ∈ s.lock.accepted) :
    ∀ x ∈ answers, ∃ e, x.2 = .error e := by
  intro x hx
  rcases hunwritten x hx with ⟨hempty, -⟩ | ⟨e, he, -⟩
  · rw [(hs.accepted x.1 (hmem x hx)).1] at hempty
    cases hempty
  · exact ⟨e, he⟩

/-- **A group that was not written** leaves the order as it is. -/
theorem answered_errors (hs : s.Serial h) {accepted : List (Prepared S)}
    {answers completed : List (Prepared S × Result ℕ)} {before : ℕ}
    (hlock : s.lock = .validated accepted completed before)
    (herror : ∀ x ∈ answers, ∃ e, x.2 = .error e)
    (hviews : ∀ v ∈ s'.views, v ∈ s.views ∨ h.lsn ≤ v.lsn) (hlsn : h.lsn ≤ h'.lsn)
    (hlock' : s'.lock = .answered answers completed before)
    (hcoordinator : s'.coordinator = s.coordinator) (hcommitted : s'.committed = s.committed)
    (hqueue : s'.queue = s.queue) (hresults : s'.results = s.results)
    (hfirst : s'.firstShared = s.firstShared) : s'.Serial h' := by
  have hok : ∀ x ∈ answers, ∀ n, x.2 ≠ .ok n := fun x hx n hn => by
    obtain ⟨e, he⟩ := herror x hx
    rw [he] at hn
    cases hn
  refine
    { follows := hcommitted ▸ hs.follows
      le := fun c hc => (hs.le c (hcommitted ▸ hc)).trans hlsn
      remembered := fun c hc => Or.inr ?_
      pending := fun x hx n hn => ?_
      ascending := ?_
      waiting := hqueue ▸ hs.waiting
      accepted := fun b hb => by simp [hlock', Lock.accepted] at hb
      apart := by simp [hlock', Lock.accepted]
      completed := fun x hx => hs.completed x (by rw [hlock, Lock.completed]; rwa [hlock'] at hx)
      answered := by rw [hcommitted, hresults, hfirst]; exact hs.answered }
  · rw [hcommitted] at hc
    refine hs.remembers hviews hcoordinator hc ((hs.remembered c hc).resolve_left fun hmem => ?_)
    simp [hlock, Lock.answers] at hmem
  · rw [hlock'] at hx
    exact (hok x hx n hn).elim
  · rw [hlock']
    exact List.Pairwise.imp_of_mem (fun hx _ _ n m hn _ => absurd hn (hok _ hx n))
      (List.pairwise_of_forall (R := fun _ _ => True) fun _ _ => trivial)

/-- **A written group** comes behind everything committed, and is what the leader has to
record. -/
theorem write (hs : s.Serial h) (hviewed : s.Viewed h) {accepted active : List (Prepared S)}
    {answers completed : List (Prepared S × Result ℕ)} {before : ℕ}
    (hlock : s.lock = .validated accepted completed before)
    (herror : ∀ x ∈ answers, ∃ e, x.2 = .error e) (hsub : active.Sublist accepted)
    (hne : active ≠ []) (hmax : h.lsn + active.length ≤ maxU64)
    (hlsn : h'.lsn = h.lsn + active.length)
    (hviews : ∀ v ∈ s'.views, v ∈ s.views ∨ h.lsn ≤ v.lsn)
    (hlock' : s'.lock = .written (answers ++ published h.lsn active) completed before)
    (hcoordinator : s'.coordinator = s.coordinator)
    (hcommitted : s'.committed = s.committed ++ active.zipIdx (h.lsn + 1))
    (hqueue : s'.queue = s.queue) (hresults : s'.results = s.results)
    (hfirst : s'.firstShared = s.firstShared) : s'.Serial h' := by
  have hmem {b : Prepared S} {n : ℕ} : (b, .ok n) ∈ s'.lock.answers ↔
      (b, n) ∈ active.zipIdx (h.lsn + 1) := by
    rw [hlock']
    exact mem_answers_written herror
  refine
    { follows := ?_
      le := fun c hc => ?_
      remembered := fun c hc => ?_
      pending := fun x hx n hn => ?_
      ascending := ?_
      waiting := hqueue ▸ hs.waiting
      accepted := fun b hb => by simp [hlock', Lock.accepted] at hb
      apart := by simp [hlock', Lock.accepted]
      completed := fun x hx => hs.completed x (by rw [hlock, Lock.completed]; rwa [hlock'] at hx)
      answered := fun x hx n hn hfrom hx' => ?_ }
  · rw [hcommitted]
    exact hs.follows_written (by rw [hlock]; exact hsub) hviewed.le hmax hne
  · rw [hcommitted] at hc
    rcases List.mem_append.mp hc with hc | hc
    · have := hs.le c hc
      omega
    · obtain ⟨-, hlt, -⟩ := List.mem_zipIdx hc
      omega
  · rw [hcommitted] at hc
    rcases List.mem_append.mp hc with hc | hc
    · refine Or.inr (hs.remembers hviews hcoordinator hc
        ((hs.remembered c hc).resolve_left fun hmem => ?_))
      simp [hlock, Lock.answers] at hmem
    · exact Or.inl (hmem.mpr hc)
  · obtain ⟨b, r⟩ := x
    obtain rfl : r = .ok n := hn
    have hnew := hmem.mp hx
    rw [hcommitted]
    refine ⟨List.mem_append_right _ hnew, fun c hc => ?_⟩
    rcases List.mem_append.mp hc with hc | hc
    · obtain ⟨hle, -, -⟩ := List.mem_zipIdx hnew
      exact Or.inr ((hs.le c hc).trans (Nat.le_of_succ_le hle))
    · exact Or.inl (hmem.mpr hc)
  · rw [hlock']
    exact ascending_published herror _ _
  · rw [hcommitted]
    exact List.mem_append_left _
      (hs.answered x (hresults ▸ hx) n hn (hfirst ▸ hfrom) hx')

/-- **The record** of a group remembers what it has committed, and pruning by the oldest
view forgets only what all views have. -/
theorem settle (hs : s.Serial h) (answers completed : List (Prepared S × Result ℕ))
    (oldest : ℕ) (hans : s.lock.answers = answers) (hcompleted : s.lock.completed = completed)
    (hviews : ∀ v ∈ s'.views, v ∈ s.views ∨ h.lsn ≤ v.lsn)
    (hlock' : s'.lock = .free)
    (hold : ∀ v ∈ s'.views, oldest ≤ v.lsn)
    (hcoordinator : s'.coordinator = s.coordinator.record answers ∨
      s'.coordinator = (s.coordinator.record answers).pruneRevisions oldest)
    (hcommitted : s'.committed = s.committed)
    (hwaiting : s'.queue.waiting = s.queue.waiting)
    (hresults : s'.results = s.results ++ (completed ++ answers))
    (hfirst : s'.firstShared = s.firstShared) : s'.Serial h := by
  -- what the record has of a commit
  have hrecord : ∀ c ∈ s.committed,
      (∀ key ∈ c.1.keys, (∃ r, (s.coordinator.record answers).revisions[key]? = some r ∧
        c.2 ≤ r) ∨ ∀ v ∈ s'.views, c.2 ≤ v.lsn) ∧
      (c.1.changesCatalog = true → c.2 ≤ (s.coordinator.record answers).catalogRevision) := by
    intro c hc
    by_cases hnew : (c.1, .ok c.2) ∈ answers
    · obtain ⟨hkeys, hcat⟩ := Coordinator.record_spec (c := s.coordinator)
        (hans ▸ hs.ascending) hnew
      exact ⟨fun key hkey => Or.inl (hkeys key hkey), hcat⟩
    · obtain ⟨hkeys, hcat⟩ := Coordinator.record_mono (c := s.coordinator)
        fun x hx m hm => ((hs.pending x (hans ▸ hx) m hm).2 c hc).resolve_left (hans ▸ hnew)
      have hr : s.Remembers c := (hs.remembered c hc).resolve_left (hans ▸ hnew)
      refine ⟨fun key hkey => ?_, fun hchange => hcat (hr.catalog hchange)⟩
      refine (hr.keys key hkey).imp (hkeys key) fun hall v hv => ?_
      exact (hviews v hv).elim (hall v) (hs.le c hc).trans
  refine
    { follows := hcommitted ▸ hs.follows
      le := hcommitted ▸ hs.le
      remembered := fun c hc => Or.inr ?_
      pending := fun x hx => by simp [hlock', Lock.answers] at hx
      ascending := by simp [hlock', Lock.answers, Coordinator.Ascending]
      waiting := hwaiting ▸ hs.waiting
      accepted := fun b hb => by simp [hlock', Lock.accepted] at hb
      apart := by simp [hlock', Lock.accepted]
      completed := fun x hx => by simp [hlock', Lock.completed] at hx
      answered := fun x hx n hn hfrom hne => ?_ }
  · obtain ⟨hkeys, hcat⟩ := hrecord c (hcommitted ▸ hc)
    rcases hcoordinator with heq | heq
    · exact ⟨fun key hkey => by rw [heq]; exact hkeys key hkey,
        fun hchange => by rw [heq]; exact hcat hchange⟩
    · refine ⟨fun key hkey => ?_, fun hchange => by rw [heq]; exact hcat hchange⟩
      rw [heq]
      rcases hkeys key hkey with ⟨r, hr, hle⟩ | hall
      · refine (Coordinator.getElem?_pruneRevisions hr).imp
          (fun hkept => ⟨r, hkept, hle⟩) fun hdropped v hv => ?_
        exact (hle.trans hdropped).trans (hold v hv)
      · exact Or.inr hall
  · rw [hcommitted]
    rw [hresults] at hx
    rcases List.mem_append.mp hx with hx | hx
    · exact hs.answered x hx n hn (hfirst ▸ hfrom) hne
    · rcases List.mem_append.mp hx with hx | hx
      · obtain ⟨e, he⟩ := hs.completed x (hcompleted ▸ hx)
        simp [he] at hn
      · exact (hs.pending x (hans ▸ hx) n hn).1

/-- A database that becomes a shared one has no commits to order. -/
theorem intoShared {h : Handle S} (hids : ∀ i ∈ s.ids, i < s.next) (hlock : s.lock = .free) :
    ({ s with sharedMode := true, coordinator := .new, committed := []
              queue := ⟨[], 0, 0⟩, firstShared := s.next } : Shared S).Serial h where
  follows := List.Pairwise.nil
  le c hc := nomatch hc
  remembered c hc := nomatch hc
  pending x hx := by simp [hlock, Lock.answers] at hx
  ascending := by simp [hlock, Lock.answers, Coordinator.Ascending]
  waiting b hb := nomatch hb
  accepted b hb := by simp [hlock, Lock.accepted] at hb
  apart := by simp [hlock, Lock.accepted]
  completed x hx := by simp [hlock, Lock.completed] at hx
  answered x hx n _ hfrom := by
    refine absurd (hids x.1.id ?_) (Nat.not_lt.mpr hfrom)
    refine List.mem_append_right _ (List.mem_map.mpr ⟨x, List.mem_append_right _ hx, rfl⟩)

/-- **A step of a shared database keeps the order of the commits.** -/
theorem step {limits : Limits} (hstep : Shared.Step limits s s')
    (hh : s.system.handle = some h) (hh' : s'.system.handle = some h')
    (hmode : s.sharedMode = true) (hviewed : s.Viewed h) (hs : s.Serial h) : s'.Serial h' := by
  have hviews : ∀ v ∈ s'.views, v ∈ s.views ∨ h.lsn ≤ v.lsn := fun v =>
    views_of_step hstep hh hh'
  obtain ⟨hlsn, -⟩ := hstep.lsn_le hh hh'
  have hviewed' := hviewed.step hstep hh hh'
  cases hstep with
  | pin | register | unpin | begin | stage | abort | maintain | installFailed =>
    exact hs.shuffle hlsn hviews rfl rfl rfl rfl rfl rfl (fun _ => Or.inl) fun _ => Or.inl
  | beginLocal _ _ _ _ hlocal | commitLocal _ _ _ _ _ _ _ hlocal | installLocal _ _ _ hlocal
  | intoShared hlocal =>
    rw [hmode] at hlocal
    cases hlocal
  | refuse h₀ b l₁ l₂ reading answer hh₀ hb henqueue =>
    refine hs.shuffle hlsn hviews rfl rfl rfl rfl rfl rfl (fun _ => Or.inl) fun x hx => ?_
    rcases List.mem_append.mp hx with hx | hx
    · exact Or.inl hx
    · obtain rfl := List.mem_singleton.mp hx
      rcases henqueue with ⟨e, -, rfl⟩ | ⟨n, hn, rfl⟩
      · exact Or.inr (Or.inl ⟨e, rfl⟩)
      · exact Or.inr (Or.inr (isEmpty_of_enqueue hn).1)
  | submit h₀ b l₁ l₂ reading queue hh₀ _ hb henqueue =>
    rw [hmode] at henqueue
    refine hs.shuffle hlsn hviews rfl rfl rfl rfl rfl rfl (fun b' hb' => ?_) fun _ => Or.inl
    rw [(waiting_of_enqueue henqueue).1] at hb'
    rcases List.mem_append.mp hb' with hb' | hb'
    · exact Or.inl hb'
    · rw [List.mem_singleton.mp hb']
      exact Or.inr (waiting_of_enqueue henqueue).2
  | cancel b hb =>
    refine hs.shuffle hlsn hviews rfl rfl rfl rfl rfl rfl
      (fun b' hb' => Or.inl (List.mem_filter.mp hb').1) fun x hx => ?_
    rcases List.mem_append.mp hx with hx | hx
    · exact Or.inl hx
    · rw [List.mem_singleton.mp hx]
      exact Or.inr (Or.inl ⟨_, rfl⟩)
  | claim h₀ expired accepted completed hh₀ _ hlock hvalid =>
    obtain ⟨haccepted, hapart, hcompleted⟩ :=
      hs.claim hlock (fun b hb => List.mem_of_mem_take hb) hvalid
    have hnone : s.lock.answers = [] := by rw [hlock]; rfl
    exact
      { follows := hs.follows
        le := fun c hc => (hs.le c hc).trans hlsn
        remembered := fun c hc => Or.inr (hs.remembers hviews rfl hc
          ((hs.remembered c hc).resolve_left (by simp [hnone])))
        pending := fun x hx => nomatch hx
        ascending := List.Pairwise.nil
        waiting := fun b hb => hs.waiting b (List.mem_of_mem_drop hb)
        accepted := haccepted
        apart := hapart
        completed := hcompleted
        answered := hs.answered }
  | reject h₀ accepted completed answers before readings hh₀ hlock hfault hgroup =>
    obtain ⟨hperm, -, -, hunwritten⟩ := commitGroup_spec hfault hgroup
    refine hs.answered_errors hlock (hs.error_of_unwritten hunwritten fun x hx => ?_) hviews hlsn
      rfl rfl rfl rfl rfl rfl
    rw [hlock]
    exact hperm.subset (List.mem_append_left _ (List.mem_map_of_mem hx))
  | write h₀ accepted active completed answers before readings system hh₀ hlock hfault hgroup hne
      hsystem =>
    obtain rfl : h₀ = h := Option.some.inj (hh₀.symm.trans hh)
    obtain ⟨hperm, hsub, -, hunwritten⟩ := commitGroup_spec hfault hgroup
    obtain ⟨h₁, h₂, hh₁, hh₂, -, -, hlen, -, hmax, -⟩ := hsystem.commit_ok
    obtain rfl : h₁ = h₀ := Option.some.inj (hh₁.symm.trans hh)
    obtain rfl : h₂ = h' := Option.some.inj (hh₂.symm.trans hh')
    rw [List.length_map] at hlen hmax
    refine hs.write hviewed hlock (hs.error_of_unwritten hunwritten fun x hx => ?_) hsub hne hmax
      hlen hviews rfl rfl rfl rfl rfl rfl
    rw [hlock]
    exact hperm.subset (List.mem_append_left _ (List.mem_map_of_mem hx))
  | writeFailed h₀ accepted active completed answers before readings system bytes synced message
      hh₀ hlock hfault hgroup =>
    obtain ⟨hperm, -, -, hunwritten⟩ := commitGroup_spec hfault hgroup
    refine hs.answered_errors hlock (fun x hx => ?_) hviews hlsn rfl rfl rfl rfl rfl rfl
    rcases List.mem_append.mp hx with hx | hx
    · refine hs.error_of_unwritten hunwritten (fun x hx => ?_) x hx
      rw [hlock]
      exact hperm.subset (List.mem_append_left _ (List.mem_map_of_mem hx))
    · obtain ⟨b, -, rfl⟩ := List.mem_map.mp hx
      exact ⟨_, rfl⟩
  | publish h₀ answers completed before hh₀ hlock =>
    exact hs.shuffle hlsn hviews rfl rfl rfl (by rw [hlock]; rfl) (by rw [hlock]; rfl)
      (by rw [hlock]; rfl) (fun _ => Or.inl) fun _ => Or.inl
  | finish h₀ answers completed before hh₀ hlock =>
    obtain rfl : h₀ = h := Option.some.inj (hh₀.symm.trans hh)
    obtain rfl : h₀ = h' := Option.some.inj (hh₀.symm.trans hh')
    have hcurrent := hviewed.current fun _ _ _ heq => by simp [hlock] at heq
    refine hs.settle answers completed (s.oldestSequence.getD h₀.lsn) (by rw [hlock]; rfl)
      (by rw [hlock]; rfl) hviews rfl (fun v hv => ?_) ?_ rfl ?_ rfl rfl
    · rcases hviews v hv with hv | hv
      · exact Shared.oldestSequence_le hviewed hcurrent hv
      · have := Shared.oldestSequence_le hviewed hcurrent List.mem_cons_self
        rw [hcurrent] at this
        exact this.trans hv
    · dsimp only [Shared.recorded]
      rw [if_pos hmode]
      split
      · exact Or.inr rfl
      · exact Or.inl rfl
    · dsimp only
      rw [if_pos hmode]
      exact Queue.waiting_finish _ _
  | install h₀ system hh₀ _ hlock =>
    exact hs.shuffle hlsn hviews rfl rfl rfl (by rw [hlock]; rfl) (by rw [hlock]; rfl)
      (by rw [hlock]; rfl) (fun _ => Or.inl) fun _ => Or.inl
  | lookup h₀ hh₀ hlock =>
    exact hs.shuffle hlsn hviews rfl rfl rfl (by rw [hlock]; rfl) (by rw [hlock]; rfl)
      (by rw [hlock]; rfl) (fun _ => Or.inl) fun _ => Or.inl
  | prune oldest hlock =>
    obtain rfl : h = h' := Option.some.inj (hh.symm.trans hh')
    refine hs.settle [] [] oldest (by rw [hlock]; rfl) (by rw [hlock]; rfl) hviews rfl
      (fun v hv => ?_) (Or.inr rfl) rfl rfl (by simp) rfl
    rcases hviews v hv with hv | hv
    · exact hviewed.pruning oldest hlock v hv
    · have hcurrent := hviewed.pruning oldest hlock s.current List.mem_cons_self
      exact (hcurrent.trans (hviewed.le _ List.mem_cons_self)).trans hv
  | crash length system hsystem => simp [hsystem.crash_handle.1] at hh'
  | reopen h₀ system hsystem => simp [hsystem.reopen_handle.1] at hh

end Shared.Serial

/-- **The order of the commits** holds in every state of every run. -/
theorem Shared.Reachable.serial {limits : Limits} {s : Shared S}
    (hs : Shared.Reachable S limits s) (hmode : s.sharedMode = true) {h : Handle S}
    (hh : s.system.handle = some h) : s.Serial h := by
  induction hs generalizing h with
  | initial => cases hh
  | @step s s' hs hstep ih =>
    cases hbefore : s.system.handle with
    | none =>
      obtain ⟨system, -, rfl⟩ := hstep.of_none hbefore hh
      cases hmode
    | some h₀ =>
      cases hshared : s.sharedMode with
      | true => exact (ih hshared hbefore).step hstep hbefore hh hshared (hs.viewed hbefore)
      | false =>
        cases hstep with
        | intoShared _ _ hlock => exact .intoShared hs.nodup_ids.2 hlock
        | reopen => cases hmode
        | _ =>
          rw [hshared] at hmode
          cases hmode

/-! ### The theorem -/

/-- **First committer wins.** In every state of every run of a shared database, the
transactions committed since it became one are in the order of their sequences, and a
later one had an earlier one in its view whenever they have written a common entity or
the earlier one has changed the catalog; and every transaction that was not empty and was
told of a success is among them. -/
theorem Shared.first_committer_wins {limits : Limits} {s : Shared S}
    (hs : Shared.Reachable S limits s) (hmode : s.sharedMode = true) :
    s.committed.Pairwise Follows ∧
      ∀ b n, (b, .ok n) ∈ s.results → s.firstShared ≤ b.id → b.isEmpty = false →
        (b, n) ∈ s.committed := by
  cases hh : s.system.handle with
  | none =>
    have hidle := hs.idle hh
    rw [hidle.committed, hidle.results]
    exact ⟨List.Pairwise.nil, fun b n hb => nomatch hb⟩
  | some h =>
    have hserial := hs.serial hmode hh
    exact ⟨hserial.follows, fun b n hb => hserial.answered (b, .ok n) hb n rfl⟩

/-! ### A run -/

section Run

/-- A shared database between two commits: nobody is connected. -/
structure Shared.Quiet (s : Shared S) (h : Handle S) : Prop where
  handle : s.system.handle = some h
  ready : h.poisoned = false
  mode : s.sharedMode = true
  current : s.current = h.view
  pinning : s.pinning = []
  pins : s.pins = []
  staging : s.staging = []
  queue : s.queue = ⟨[], 0, 0⟩
  lock : s.lock = .free

/-- A shared database that has just been opened. -/
structure Shared.Fresh (s : Shared S) (h : Handle S) : Prop extends s.Quiet h where
  coordinator : s.coordinator = .new

/-- A transaction is begun, queued and validated: it is written behind every revision of
its keys. -/
theorem Shared.Quiet.claimed {limits : Limits} {s : Shared S} {h : Handle S} (hq : s.Quiet h)
    (hs : Shared.Reachable S limits s) {b : Prepared S} (hid : b.id = s.next)
    (hbase : b.base = h.view) (hne : b.isEmpty = false)
    (hpasses : s.coordinator.validate false false ∅ s.coordinator.catalogRevision b = .ok ())
    (hcount : 1 ≤ limits.queue.maxQueuedCommits) (hbytes : b.bytes ≤ maxU64)
    (hqueued : b.bytes ≤ limits.queue.maxQueuedCommitBytes) :
    Shared.Reachable S limits
      { s with
        next := s.next + 1
        queue := ⟨[], 1, b.bytes⟩
        lock := .validated [b] [] h.root.generation } := by
  have h₁ := hs.step (.pin _ h hq.handle hq.ready)
  have h₂ := h₁.step (.register _ s.current [] s.pinning rfl)
  have h₃ := h₂.step (.begin _ s.current [] s.pins b hq.mode rfl hid (hbase.trans hq.current.symm))
  have henqueue : enqueue limits.queue s.sharedMode h.poisoned
      ⟨false, false, false, false⟩ b s.queue =
      .ok (.inr ⟨[b], 1, b.bytes⟩) := by
    have hone : 1 ≤ maxU64 := by decide
    simp [enqueue, hq.ready, hq.mode, hne, hq.queue, Queue.submit, check, hcount, hone, hbytes,
      hqueued]
  have h₄ := h₃.step (.submit _ h b [] s.staging _ _ hq.handle hq.mode rfl henqueue)
  have hclaimed : Queue.claimed limits.group 0 0 [b] = 1 := by simp [Queue.claimed]
  have hclaim : Queue.claim limits.group ⟨[b], 1, b.bytes⟩ = [b] := by
    simp [Queue.claim, hclaimed]
  have hrest : Queue.rest limits.group ⟨[b], 1, b.bytes⟩ = ⟨[], 1, b.bytes⟩ := by
    simp [Queue.rest, hclaimed]
  have hvalid : s.coordinator.validateGroup h.poisoned (fun _ => false) ∅
      s.coordinator.catalogRevision (Queue.claim limits.group ⟨[b], 1, b.bytes⟩) = ([b], []) := by
    rw [hclaim, hq.ready]
    simp [Coordinator.validateGroup, hpasses]
  have h₅ := h₄.step (.claim _ h _ _ _ hq.handle hq.mode hq.lock hvalid)
  simpa only [hq.pinning, hq.pins, hq.staging, hrest, List.nil_append] using h₅

/-- Its group is prepared to be written. -/
theorem commitGroup_single {lsn : ℕ} (walBytes : ℕ) {b : Prepared S} (hne : b.isEmpty = false)
    (hlsn : lsn + 1 ≤ maxU64) (hsize : b.payload.length ≤ maxFrame) :
    commitGroup false lsn walBytes ⟨maxU64⟩ ⟨none, [⟨fun _ => false, fun _ => false⟩]⟩ [b] =
      some ([], [b]) := by
  have hframes : encodeFrames lsn 0 [b] = .ok [(Frame.mk 2 (lsn + 1) b.payload).bytes] := by
    simp [encodeFrames, checkedAdd, hlsn, Frame.encode, Nat.not_lt.mpr hsize]
  have hlimit (n : ℕ) : ¬ maxU64 < saturatingAdd walBytes n := Nat.not_lt.mpr (min_le_right _ _)
  simp [commitGroup, prepareFrames, remaining, resolved, hne, hframes, hlimit]

/-- Limits with room for one transaction. -/
def oneLimits : Limits where
  wal := ⟨maxU64⟩
  queue := ⟨1, 8⟩
  group := ⟨1, 8⟩

/-- A directory is opened for the first time, and shared. -/
theorem exists_fresh (limits : Limits) :
    ∃ (s : Shared sequenceSemantics) (h : Handle sequenceSemantics),
      Shared.Reachable sequenceSemantics limits s ∧ s.Fresh h ∧ h.lsn = 0 ∧ h.state = (0 : ℕ) ∧
        s.next = 0 ∧ s.firstShared = 0 ∧ s.committed = [] ∧ s.results = [] := by
  have h₀ : Shared.Reachable sequenceSemantics limits _ := .initial
  have hdir : (System.initial sequenceSemantics).dir = oneSegmentDirectory [] 1 :=
    oneSegmentDirectory_nil.symm
  obtain ⟨walBytes, hopen⟩ :=
    @step_oneSegment limits.wal [] 1 (by simp) (by decide) le_rfl _ hdir rfl
  have h₁ := h₀.step (.reopen _ _ _ hopen rfl)
  have h₂ := h₁.step (.intoShared _ rfl rfl rfl)
  exact ⟨_, _, h₂, ⟨⟨rfl, rfl, rfl, rfl, rfl, rfl, rfl, rfl, rfl⟩, rfl⟩, rfl, rfl, rfl, rfl, rfl,
    rfl⟩

/-- **A transaction commits on its own**: its group is written, published and recorded, and
the database is quiet again. -/
theorem Shared.Quiet.exists_committed {s : Shared sequenceSemantics}
    {h : Handle sequenceSemantics} (hq : s.Quiet h)
    (hs : Shared.Reachable sequenceSemantics oneLimits s) {b : Prepared sequenceSemantics}
    (hid : b.id = s.next) (hbase : b.base = h.view) (hne : b.isEmpty = false)
    (hpasses : s.coordinator.validate false false ∅ s.coordinator.catalogRevision b = .ok ())
    (hbytes : b.bytes ≤ 8) (hsize : b.payload.length ≤ maxFrame) (hlsn : h.lsn + 1 ≤ maxU64) :
    ∃ (s' : Shared sequenceSemantics) (h' : Handle sequenceSemantics),
      Shared.Reachable sequenceSemantics oneLimits s' ∧ s'.Quiet h' ∧ h'.lsn = h.lsn + 1 ∧
        s'.next = s.next + 1 ∧ s'.firstShared = s.firstShared ∧
        s'.coordinator = s.coordinator.record [(b, .ok (h.lsn + 1))] ∧
        s'.committed = s.committed ++ [(b, h.lsn + 1)] ∧
        s'.results = s.results ++ [(b, .ok (h.lsn + 1))] := by
  have h₁ := hq.claimed hs hid hbase hne hpasses le_rfl (hbytes.trans (by decide)) hbytes
  have hgroup := commitGroup_single h.walBytes hne hlsn hsize
  rw [← hq.ready] at hgroup
  have hcommit : EveDB.Step sequenceSemantics oneLimits.wal s.system (.commit [b.payload] .ok) _ :=
    .commit _ h [b.payload] (h.lsn + 1 : ℕ) .ok hq.handle hq.ready rfl (by simpa using hsize) hlsn
      (min_le_right _ _)
  have h₂ := h₁.step (.write _ h _ _ _ _ _ _ _ hq.handle rfl (by simp) hgroup (by simp) hcommit)
  have h₃ := h₂.step (.publish _ _ _ _ _ rfl rfl hq.pinning)
  have h₄ := h₃.step (.finish _ _ _ _ _ rfl rfl)
  refine ⟨_, _, h₄, ⟨rfl, ?_, hq.mode, rfl, hq.pinning, hq.pins, hq.staging, ?_, rfl⟩, rfl, rfl,
    rfl,
    ?_, rfl, rfl⟩
  · exact hq.ready
  · simp [hq.mode, Queue.finish, published]
  · simp [Shared.recorded, hq.mode, published, WriteOutcome.failed]

/-- A transaction that writes one entity. -/
def oneBatch (h : Handle sequenceSemantics) : Prepared sequenceSemantics where
  id := 0
  base := h.view
  keys := [(1, 1)]
  changesCatalog := false
  isEmpty := false
  payload := [7]
  bytes := 8

/-- The second transaction of a database, for the entity of the first. -/
def otherBatch (h : Handle sequenceSemantics) : Prepared sequenceSemantics :=
  { oneBatch h with id := 1 }

/-- Nothing stands against a transaction of a new database. -/
theorem validate_new (b : Prepared S) :
    Coordinator.new.validate false false ∅ Coordinator.new.catalogRevision b = .ok () := by
  refine Coordinator.validate_eq_ok.mpr ⟨rfl, rfl, Nat.zero_le _, fun key _ lsn hlsn => ?_⟩
  simp [Coordinator.revision, Coordinator.new] at hlsn

/-- Of two transactions for one entity in a group, the first one bars the second one. -/
theorem validateGroup_pair {b c : Prepared S} {k : EntityKey} (hb : b.keys = [k])
    (hc : c.keys = [k]) (hchange : b.changesCatalog = false) (hlater : c.base.lsn < maxU64) :
    Coordinator.new.validateGroup false (fun _ => false) ∅ Coordinator.new.catalogRevision [b, c] =
      ([b], [(c, .error (.conflict (some k.1) (some k.2)))]) := by
  have hpass := validate_new b
  have hplaceholder : Coordinator.new.revision
      (b.keys.foldl (fun keys key => keys.insert key maxU64) ∅) k = some maxU64 := by
    simp [Coordinator.revision, hb]
  have hconflict : Coordinator.new.conflicting
      (b.keys.foldl (fun keys key => keys.insert key maxU64) ∅) c.base.lsn [k] = some k := by
    simp only [Coordinator.conflicting, List.find?_cons, hplaceholder, Option.any_some,
      decide_eq_true hlater]
  have hrefused : Coordinator.new.validate false false
      (b.keys.foldl (fun keys key => keys.insert key maxU64) ∅) Coordinator.new.catalogRevision c =
        .error (.conflict (some k.1) (some k.2)) := by
    have hcat : ¬ Coordinator.new.catalogRevision > c.base.lsn := Nat.not_lt_zero _
    simp only [Coordinator.validate, Bool.false_eq_true, if_false]
    rw [hc, if_neg hcat, hconflict]
  simp [Coordinator.validateGroup, hpass, hchange, hrefused]

/-- The revision of the first one is not above the view of the second one. -/
theorem validate_otherBatch (h h' : Handle sequenceSemantics) (hlsn : h'.lsn = 1) :
    (Coordinator.new.record [(oneBatch h, .ok 1)]).validate false false ∅
      (Coordinator.new.record [(oneBatch h, .ok 1)]).catalogRevision (otherBatch h') = .ok () := by
  refine Coordinator.validate_eq_ok.mpr ⟨rfl, rfl, Nat.zero_le _, fun key hkey lsn hrevision => ?_⟩
  obtain rfl : key = (1, 1) := List.mem_singleton.mp hkey
  have hone : lsn = 1 := by
    have hkept :
      ((∅ : SortedMap EntityKey ℕ).insert (1, 1) 1)[((1, 1) : EntityKey)]? = some lsn := by
      rw [← hrevision, Coordinator.revision, Std.ExtTreeMap.getElem?_empty, Option.none_or]
      rfl
    rw [Std.ExtTreeMap.getElem?_insert_self] at hkept
    exact (Option.some.inj hkept).symm
  rw [hone]
  exact hlsn.ge

/-- Two transactions for one entity commit in a shared database, one behind the other: the
second one has the first one in its view. -/
theorem Shared.first_committer_wins_run :
    ∃ (s : Shared sequenceSemantics) (b b' : Prepared sequenceSemantics),
      s.sharedMode = true ∧ s.committed = [(b, 1), (b', 2)] ∧ b.keys = b'.keys ∧
        b'.base.lsn = 1 ∧ s.committed.Pairwise Follows ∧ (b, 1) ∈ s.committed ∧
        (b', 2) ∈ s.committed := by
  obtain ⟨s, h, hs, hf, hlsn, hstate, hnext, hfirst, hcommitted, hresults⟩ :=
    exists_fresh oneLimits
  have hpasses : s.coordinator.validate false false ∅ s.coordinator.catalogRevision (oneBatch h) =
      .ok () := by
    rw [hf.coordinator]
    exact validate_new (oneBatch h)
  obtain ⟨s₁, h₁, hs₁, hq₁, hlsn₁, hnext₁, hfirst₁, hcoordinator₁, hcommitted₁, hresults₁⟩ :=
    hf.exists_committed hs (b := oneBatch h) hnext.symm rfl rfl hpasses le_rfl
      (show [(7 : UInt8)].length ≤ maxFrame by decide) (by rw [hlsn]; decide)
  rw [hlsn] at hlsn₁ hcoordinator₁ hcommitted₁ hresults₁
  -- The second one begins behind the first one, whose revision is the sequence of its view.
  have hpasses₁ : s₁.coordinator.validate false false ∅ s₁.coordinator.catalogRevision
      (otherBatch h₁) = .ok () := by
    rw [hcoordinator₁, hf.coordinator]
    exact validate_otherBatch h h₁ hlsn₁
  obtain ⟨s₂, h₂, hs₂, hq₂, hlsn₂, hnext₂, hfirst₂, hcoordinator₂, hcommitted₂, hresults₂⟩ :=
    hq₁.exists_committed hs₁ (b := otherBatch h₁) (by rw [hnext₁, hnext]; rfl) rfl rfl hpasses₁
      le_rfl (show [(7 : UInt8)].length ≤ maxFrame by decide) (by rw [hlsn₁]; decide)
  rw [hlsn₁] at hcommitted₂ hresults₂
  rw [hcommitted₁, hcommitted] at hcommitted₂
  rw [hresults₁, hresults] at hresults₂
  rw [hfirst₁, hfirst] at hfirst₂
  obtain ⟨hpair, hmem⟩ := Shared.first_committer_wins hs₂ hq₂.mode
  refine ⟨s₂, oneBatch h, otherBatch h₁, hq₂.mode, hcommitted₂, rfl, hlsn₁, hpair, ?_, ?_⟩
  · exact hmem (oneBatch h) 1 (by rw [hresults₂]; simp) (by simp [hfirst₂]) rfl
  · exact hmem (otherBatch h₁) 2 (by rw [hresults₂]; simp) (by simp [hfirst₂]) rfl

end Run

end EveDB
