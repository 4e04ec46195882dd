import EveDB.Shared.System
import EveDB.Shared.Validation

/-!
# Steps, and who is where

What the steps below do to the owner of a directory, as far as the connections can see
it: a step that commits nothing keeps the published sequence and state
(`Step.keeps`), and only a crash takes the handle away. With nobody owning the directory
the connections are idle (`Shared.Idle`).

Every transaction has an identity of its own, wherever it is: being staged, queued, with
the leader, or finished (`Shared.Reachable.nodup_ids`).
-/

namespace EveDB

variable {E : Engine} {S : Semantics E}

/-! ### The owner of the directory -/

/-- The actions that neither acknowledge a commit nor end or begin an opening. -/
def Action.Keeps : Action → Prop
  | .commit _ .ok | .crash _ | .reopen => False
  | _ => True

/-- **A step that commits nothing** keeps what is published and acknowledged. -/
theorem Step.keeps {limits : WalLimits} {s s' : System S} {a : Action}
    (h : Step S limits s a s') (ha : a.Keeps) :
    ∃ h h', s.handle = some h ∧ s'.handle = some h' ∧ h'.lsn = h.lsn ∧ h'.state = h.state ∧
      (h.poisoned = true → h'.poisoned = true) ∧ s'.acked = s.acked := by
  cases h with
  | commit h payloads state o hh =>
    cases o with
    | ok => exact ha.elim
    | error written synced => exact ⟨h, _, hh, rfl, rfl, rfl, fun _ => rfl, rfl⟩
  | capture h o hh =>
    refine ⟨h, _, hh, rfl, ?_⟩
    cases o <;> exact ⟨rfl, rfl, fun hp => by simp [WriteOutcome.failed, hp], rfl⟩
  | install h job root o hh =>
    refine ⟨h, _, hh, rfl, ?_⟩
    cases o <;> exact ⟨rfl, rfl, fun hp => by simp [WriteOutcome.failed, hp], rfl⟩
  | captureFailed h left hh => exact ⟨h, _, hh, rfl, rfl, rfl, id, rfl⟩
  | build h job root hh => exact ⟨h, _, hh, rfl, rfl, rfl, id, rfl⟩
  | abandon h job hh => exact ⟨h, _, hh, rfl, rfl, rfl, id, rfl⟩
  | cleanupDone h hh => exact ⟨h, _, hh, rfl, rfl, rfl, id, rfl⟩
  | writeTable h job file hh => exact ⟨h, h, hh, hh, rfl, rfl, id, rfl⟩
  | removeSegment h previous n hh => exact ⟨h, h, hh, hh, rfl, rfl, id, rfl⟩
  | removeCatalog h previous n hh => exact ⟨h, h, hh, hh, rfl, rfl, id, rfl⟩
  | removeTable h previous id' hh => exact ⟨h, h, hh, hh, rfl, rfl, id, rfl⟩
  | crash => exact ha.elim
  | reopen => exact ha.elim

/-- A step of a checkpoint or its cleanup commits nothing. -/
theorem Action.IsMaintenance.keeps {a : Action} (ha : a.IsMaintenance) : a.Keeps := by
  cases a <;> simp_all [Action.IsMaintenance, Action.Keeps]

/-- **An acknowledged commit** was possible, and counts its members. -/
theorem Step.commit_ok {limits : WalLimits} {s s' : System S} {payloads : List Bytes}
    (h : Step S limits s (.commit payloads .ok) s') :
    ∃ h h' : Handle S, s.handle = some h ∧ s'.handle = some h' ∧ h.poisoned = false ∧
      h'.poisoned = false ∧ h'.lsn = h.lsn + payloads.length ∧
      S.run h.state h.lsn payloads = some h'.state ∧
      h.lsn + payloads.length ≤ maxU64 ∧ s'.acked = s.acked ++ numbered h.lsn payloads := by
  cases h with
  | commit h _ state _ hh ready hstate hsize hlsn =>
    exact ⟨h, _, hh, rfl, ready, ready, rfl, hstate, hlsn, rfl⟩

/-- A crash leaves no handle. -/
theorem Step.crash_handle {limits : WalLimits} {s s' : System S} {length : ℕ}
    (h : Step S limits s (.crash length) s') : s'.handle = none ∧ s'.acked = s.acked := by
  cases h
  exact ⟨rfl, rfl⟩

/-- A reopening starts without a handle, and yields one that is not poisoned. -/
theorem Step.reopen_handle {limits : WalLimits} {s s' : System S}
    (h : Step S limits s .reopen s') :
    s.handle = none ∧ s'.acked = s.acked ∧ ∃ h', s'.handle = some h' ∧ h'.poisoned = false := by
  cases h with
  | reopen o state hh => exact ⟨hh, rfl, _, rfl, rfl⟩

/-! ### Nobody connected -/

/-- Nobody is connected to the database. -/
structure Shared.Idle (s : Shared S) : Prop where
  pinning : s.pinning = []
  pins : s.pins = []
  staging : s.staging = []
  waiting : s.queue.waiting = []
  lock : s.lock = .free
  committed : s.committed = []
  results : s.results = []

/-- **Without an owner of the directory nobody is connected.** -/
theorem Shared.Reachable.idle {limits : Limits} {s : Shared S}
    (hs : Shared.Reachable S limits s) (hnone : s.system.handle = none) : s.Idle := by
  induction hs with
  | initial => exact ⟨rfl, rfl, rfl, rfl, rfl, rfl, rfl⟩
  | @step s s' _ hstep ih =>
    have hkeeps {a : Action} {system : System S}
      (hsystem : EveDB.Step S limits.wal s.system a system)
        (ha : a.Keeps) : system.handle ≠ none := by
      obtain ⟨h, h', -, hh', -⟩ := hsystem.keeps ha
      simp [hh']
    cases hstep with
    | pin h hh | beginLocal h _ hh | refuse h _ _ _ _ _ hh | submit h _ _ _ _ _ hh
    | claim h _ _ _ hh | commitLocal h _ _ _ _ _ hh | reject h _ _ _ _ _ hh
    | publish h _ _ _ hh | finish h _ _ _ hh | lookup h hh =>
      simp [hh] at hnone
    | write h _ _ _ _ _ _ _ _ _ _ _ _ hsystem =>
      obtain ⟨_, h', -, hh', -⟩ := hsystem.commit_ok
      simp [hh'] at hnone
    | writeFailed h _ _ _ _ _ _ _ _ _ _ _ _ _ _ _ hsystem =>
      exact (hkeeps hsystem trivial hnone).elim
    | maintain a _ ha hsystem => exact (hkeeps hsystem ha.keeps hnone).elim
    | install _ _ _ _ _ _ hsystem => exact (hkeeps hsystem trivial hnone).elim
    | installLocal _ _ _ _ _ _ hsystem => exact (hkeeps hsystem trivial hnone).elim
    | installFailed _ _ _ hsystem => exact (hkeeps hsystem trivial hnone).elim
    | reopen h _ _ hh => simp [hh] at hnone
    | crash => exact ⟨rfl, rfl, rfl, rfl, rfl, rfl, rfl⟩
    | register v l₁ l₂ hv => simp [(ih hnone).pinning] at hv
    | unpin v l₁ l₂ hv => simp [(ih hnone).pins] at hv
    | begin v l₁ l₂ _ _ hv => simp [(ih hnone).pins] at hv
    | stage _ _ l₁ l₂ hb => simp [(ih hnone).staging] at hb
    | abort _ l₁ l₂ hb => simp [(ih hnone).staging] at hb
    | cancel _ hb => simp [(ih hnone).waiting] at hb
    | prune _ hlock => simp [(ih hnone).lock] at hlock
    | intoShared =>
      obtain ⟨h₁, h₂, h₃, -, h₅, -, h₇⟩ := ih hnone
      exact ⟨h₁, h₂, h₃, rfl, h₅, rfl, h₇⟩

/-- **Only a reopening makes a handle.** -/
theorem Shared.Step.of_none {limits : Limits} {s s' : Shared S} (hstep : Shared.Step limits s s')
    (hnone : s.system.handle = none) {h : Handle S} (hh : s'.system.handle = some h) :
    ∃ system, EveDB.Step S limits.wal s.system .reopen system ∧
      s' = { s with system, current := h.view, sharedMode := false } := by
  have hkeeps {a : Action} {system : System S} (hsystem : EveDB.Step S limits.wal s.system a system)
      (ha : a.Keeps) : False := by
    obtain ⟨h, -, hh, -⟩ := hsystem.keeps ha
    simp [hh] at hnone
  cases hstep with
  | reopen h₀ system hsystem hh₀ =>
    obtain rfl : h₀ = h := Option.some.inj (hh₀.symm.trans hh)
    exact ⟨system, hsystem, rfl⟩
  | write h _ _ _ _ _ _ _ hh₀ => simp [hh₀] at hnone
  | writeFailed _ _ _ _ _ _ _ _ _ _ _ hh₀ => simp [hh₀] at hnone
  | install h system hh₀ => simp [hh₀] at hnone
  | installLocal h system hh₀ => simp [hh₀] at hnone
  | maintain a _ ha hsystem => exact (hkeeps hsystem ha.keeps).elim
  | installFailed _ _ _ hsystem => exact (hkeeps hsystem trivial).elim
  | crash length system hsystem => simp [hsystem.crash_handle.1] at hh
  | _ => simp [hnone] at hh

/-! ### Identities -/

/-- The transactions the holder of the coordinator has claimed. -/
def Lock.members (lock : Lock S) : List (Prepared S) :=
  lock.completed.map Prod.fst ++ lock.accepted ++ lock.answers.map Prod.fst

/-- The transactions that have not finished. -/
def Shared.unfinished (s : Shared S) : List (Prepared S) :=
  s.staging ++ s.queue.waiting ++ s.lock.members

/-- The identities of all transactions, finished or not. -/
def Shared.ids (s : Shared S) : List ℕ :=
  s.unfinished.map Prepared.id ++ (s.past ++ s.results).map fun x => x.1.id

/-- A claim takes the transactions in front. -/
theorem Queue.claim_append_rest (bounds : GroupCommit) (queue : Queue S) :
    queue.claim bounds ++ (queue.rest bounds).waiting = queue.waiting :=
  List.take_append_drop _ _

/-- The queue releases claimed transactions without touching the waiting ones. -/
theorem Queue.waiting_finish (batches : List (Prepared S)) (queue : Queue S) :
    (queue.finish batches).waiting = queue.waiting := by
  induction batches generalizing queue with
  | nil => rfl
  | cons b batches ih => exact ih _

/-- A transaction that was admitted waits behind the others. -/
theorem waiting_of_enqueue {limits : QueueLimits} {poisoned : Bool} {reading : Admission}
    {batch : Prepared S} {queue queue' : Queue S}
    (h : enqueue limits true poisoned reading batch queue = .ok (.inr queue')) :
    queue'.waiting = queue.waiting ++ [batch] ∧ batch.isEmpty = false := by
  unfold enqueue at h
  split_ifs at h with h₁ h₂ h₃ h₄ h₅ h₆ h₇
  · cases h
  · obtain ⟨q, hq, hret⟩ := bind_eq_ok.mp h
    cases hret
    obtain ⟨-, -, hq⟩ := bind_eq_ok.mp hq
    obtain ⟨-, -, hq⟩ := bind_eq_ok.mp hq
    cases hq
    exact ⟨rfl, by simpa using h₆⟩
  · exact absurd rfl h₅

/-- Only an empty transaction succeeds before it is queued. -/
theorem isEmpty_of_enqueue {limits : QueueLimits} {sharedMode poisoned : Bool} {reading : Admission}
    {batch : Prepared S} {queue : Queue S} {n : ℕ}
    (h : enqueue limits sharedMode poisoned reading batch queue = .ok (.inl n)) :
    batch.isEmpty = true ∧ n = batch.base.lsn := by
  unfold enqueue at h
  split_ifs at h with h₁ h₂ h₃ h₄ h₅ h₆ h₇
  · cases h
    exact ⟨h₆, rfl⟩
  · obtain ⟨q, -, hret⟩ := bind_eq_ok.mp h
    cases hret
  · cases h

/-- A withdrawn transaction takes its identity out of the queue. -/
theorem Queue.count_cancel {queue : Queue S} {batch : Prepared S} (hb : batch ∈ queue.waiting)
    (i : ℕ) : ((queue.cancel batch).waiting.map Prepared.id).count i +
      (if batch.id == i then 1 else 0) ≤ (queue.waiting.map Prepared.id).count i := by
  by_cases hi : batch.id = i
  · have hzero : ((queue.cancel batch).waiting.map Prepared.id).count i = 0 := by
      rw [List.count_eq_zero, List.mem_map]
      rintro ⟨b, hb, rfl⟩
      exact of_decide_eq_true (List.mem_filter.mp hb).2 hi.symm
    have hpos : 0 < (queue.waiting.map Prepared.id).count i :=
      List.count_pos_iff.mpr (hi ▸ List.mem_map_of_mem hb)
    simp only [hzero, hi, beq_self_eq_true, if_true]
    omega
  · have hbeq : (batch.id == i) = false := by simpa using hi
    rw [hbeq]
    exact (List.filter_sublist.map _).count_le i

/-- A step gives out at most one identity, the next one. -/
theorem Shared.Step.ids {limits : Limits} {s s' : Shared S} (h : Shared.Step limits s s') :
    (s'.next = s.next ∧ ∀ i, s'.ids.count i ≤ s.ids.count i) ∨
      (s'.next = s.next + 1 ∧ ∀ i, s'.ids.count i ≤ (s.next :: s.ids).count i) := by
  have hsame {t : Shared S} (hnext : t.next = s.next)
      (hcount : ∀ i, t.ids.count i ≤ s.ids.count i) :
      (t.next = s.next ∧ ∀ i, t.ids.count i ≤ s.ids.count i) ∨
        (t.next = s.next + 1 ∧ ∀ i, t.ids.count i ≤ (s.next :: s.ids).count i) :=
    Or.inl ⟨hnext, hcount⟩
  cases h with
  | pin | register | unpin | maintain | installFailed | reopen =>
    exact hsame rfl fun i => le_rfl
  | begin v l₁ l₂ batch hmode hv hid | beginLocal h batch hh ready hmode hlock hstaging hid =>
    refine Or.inr ⟨rfl, fun i => ?_⟩
    simp only [Shared.ids, Shared.unfinished, List.cons_append, List.map_cons, hid]
    exact le_rfl
  | stage batch batch' l₁ l₂ hb hid =>
    refine hsame rfl fun i => ?_
    simp only [Shared.ids, Shared.unfinished, hb, List.map_append, List.map_cons, hid]
    exact le_rfl
  | abort batch l₁ l₂ hb =>
    refine hsame rfl fun i => ?_
    simp only [Shared.ids, Shared.unfinished, hb, List.map_append, List.map_cons,
      List.count_append, List.count_cons]
    omega
  | refuse h batch l₁ l₂ reading answer hh hb =>
    refine hsame rfl fun i => ?_
    simp only [Shared.ids, Shared.unfinished, hb, List.map_append, List.map_cons, List.map_nil,
      List.count_append, List.count_cons, List.count_nil]
    omega
  | submit h batch l₁ l₂ reading queue hh hmode hb henqueue =>
    rw [hmode] at henqueue
    refine hsame rfl fun i => ?_
    simp only [Shared.ids, Shared.unfinished, hb, (waiting_of_enqueue henqueue).1, List.map_append,
      List.map_cons, List.map_nil, List.count_append, List.count_cons, List.count_nil]
    omega
  | cancel batch hb =>
    refine hsame rfl fun i => ?_
    have hcount := Queue.count_cancel hb i
    simp only [Shared.ids, Shared.unfinished, List.map_append, List.map_cons, List.map_nil,
      List.count_append, List.count_cons, List.count_nil]
    omega
  | claim h expired accepted completed hh hmode hlock hvalid =>
    refine hsame rfl fun i => ?_
    have hperm := ((Coordinator.validateGroup_perm hvalid).1.map Prepared.id).count_eq i
    have hsplit := congrArg (fun l => (l.map Prepared.id).count i)
      (s.queue.claim_append_rest limits.group)
    simp only [Shared.ids, Shared.unfinished, hlock, Lock.members, Lock.completed, Lock.accepted,
      Lock.answers, List.map_append, List.map_nil,
      List.count_append, List.count_nil] at hperm hsplit ⊢
    omega
  | commitLocal h batch l₁ l₂ reading queue hh hmode hlock hb =>
    refine hsame rfl fun i => ?_
    simp only [Shared.ids, Shared.unfinished, hb, hlock, Lock.members, Lock.completed,
      Lock.accepted, Lock.answers, List.map_append,
      List.map_cons, List.map_nil, List.count_append, List.count_cons, List.count_nil]
    omega
  | reject h accepted completed answers before readings hh hlock hfault hgroup =>
    refine hsame rfl fun i => ?_
    have hperm := ((commitGroup_spec hfault hgroup).1.map Prepared.id).count_eq i
    simp only [Shared.ids, Shared.unfinished, hlock, Lock.members, Lock.completed, Lock.accepted,
      Lock.answers, List.map_append, List.map_nil,
      List.count_append, List.count_nil] at hperm ⊢
    omega
  | write h accepted active completed answers before readings system hh hlock hfault hgroup =>
    refine hsame rfl fun i => ?_
    have hperm := ((commitGroup_spec hfault hgroup).1.map Prepared.id).count_eq i
    simp only [Shared.ids, Shared.unfinished, hlock, Lock.members, Lock.completed, Lock.accepted,
      Lock.answers, map_fst_published,
      List.map_append, List.map_nil, List.count_append, List.count_nil] at hperm ⊢
    omega
  | writeFailed h accepted active completed answers before readings system bytes synced message
      hh hlock hfault hgroup =>
    refine hsame rfl fun i => ?_
    have hperm := ((commitGroup_spec hfault hgroup).1.map Prepared.id).count_eq i
    simp only [Shared.ids, Shared.unfinished, hlock, Lock.members, Lock.completed, Lock.accepted,
      Lock.answers, map_fst_answerAll,
      List.map_append, List.map_nil, List.count_append, List.count_nil] at hperm ⊢
    omega
  | publish h answers completed before hh hlock =>
    refine hsame rfl fun i => ?_
    simp only [Shared.ids, Shared.unfinished, hlock, Lock.members, Lock.completed, Lock.accepted,
      Lock.answers]
    exact le_rfl
  | finish h answers completed before hh hlock =>
    refine hsame rfl fun i => ?_
    have hwaiting : (if s.sharedMode then
        s.queue.finish (completed.map Prod.fst ++ answers.map Prod.fst)
        else s.queue).waiting = s.queue.waiting := by
      split
      · exact Queue.waiting_finish _ _
      · rfl
    simp only [Shared.ids, Shared.unfinished, hwaiting, hlock, Lock.members, Lock.completed,
      Lock.accepted, Lock.answers, List.map_append,
      List.map_nil, List.map_map, List.count_append, List.count_nil, Function.comp_def]
    omega
  | install h system hh hmode hlock =>
    refine hsame rfl fun i => ?_
    simp only [Shared.ids, Shared.unfinished, hlock, Lock.members, Lock.completed, Lock.accepted,
      Lock.answers]
    exact le_rfl
  | installLocal => exact hsame rfl fun i => le_rfl
  | lookup h hh hlock | prune oldest hlock =>
    refine hsame rfl fun i => ?_
    simp only [Shared.ids, Shared.unfinished, hlock, Lock.members, Lock.completed, Lock.accepted,
      Lock.answers]
    exact le_rfl
  | intoShared hmode hstaging hlock =>
    refine hsame rfl fun i => ?_
    simp only [Shared.ids, Shared.unfinished, List.map_append, List.map_nil, List.count_append,
      List.count_nil]
    omega
  | crash length system =>
    refine hsame rfl fun i => ?_
    simp only [Shared.ids, Shared.unfinished, Lock.members, Lock.completed, Lock.accepted,
      Lock.answers, List.append_nil, List.map_append,
      List.map_nil, List.count_append, List.count_nil]
    omega

/-- **Every transaction has an identity of its own.** -/
theorem Shared.Reachable.nodup_ids {limits : Limits} {s : Shared S}
    (hs : Shared.Reachable S limits s) : s.ids.Nodup ∧ ∀ i ∈ s.ids, i < s.next := by
  induction hs with
  | initial => exact ⟨List.nodup_nil, fun i hi => nomatch hi⟩
  | @step s s' _ hstep ih =>
    obtain ⟨hnodup, hlt⟩ := ih
    rcases hstep.ids with ⟨hnext, hcount⟩ | ⟨hnext, hcount⟩
    · refine ⟨List.nodup_iff_count.mpr fun i =>
        (hcount i).trans (List.nodup_iff_count.mp hnodup i), fun i hi => ?_⟩
      rw [hnext]
      exact hlt i (List.count_pos_iff.mp ((List.count_pos_iff.mpr hi).trans_le (hcount i)))
    · have hfresh : s.next ∉ s.ids := fun hmem => Nat.lt_irrefl _ (hlt _ hmem)
      have hnodup' : (s.next :: s.ids).Nodup := List.nodup_cons.mpr ⟨hfresh, hnodup⟩
      refine ⟨List.nodup_iff_count.mpr fun i =>
        (hcount i).trans (List.nodup_iff_count.mp hnodup' i), fun i hi => ?_⟩
      rw [hnext]
      rcases List.mem_cons.mp
        (List.count_pos_iff.mp ((List.count_pos_iff.mpr hi).trans_le (hcount i))) with rfl | hi
      · exact Nat.lt_succ_self _
      · exact Nat.lt_succ_of_lt (hlt i hi)

end EveDB
