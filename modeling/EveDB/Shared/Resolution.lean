import EveDB.Shared.Conflicts
import EveDB.Shared.Tickets
import Mathlib.Algebra.BigOperators.Group.Finset.Basic

/-!
# Every request is resolved once

What holds of the queue and its callers in every state (`Commits.Inv`). An unresolved
request is either waiting or claimed by the leader, and there is at most one leader; so the
totals of the queue are those of the waiting and the claimed requests, and a result that is
given is the only one. Requests are claimed in the order of their numbers, group by group,
and each group is finished before the next one is claimed, which puts the sequences of
successful commits in that order too.
-/

namespace EveDB

variable {E : Engine} {S : Semantics E}

/-! ### What a group gets -/

/-- **The results of a group** are one for each member, and the sequences among them are
new and in the order of the members. -/
theorem Outcome.spec {limits : Limits} {lsn lsn' : ℕ} {claimed : List (Prepared S)}
    {final : List (Prepared S × Result ℕ)} (h : Outcome limits lsn claimed final lsn')
    (hne : ∀ b ∈ claimed, b.isEmpty = false)
    (horder : claimed.Pairwise fun b b' => b.id < b'.id) :
    List.Perm (final.map Prod.fst) claimed ∧ lsn ≤ lsn' ∧
      (∀ b n, (b, .ok n) ∈ final → lsn < n ∧ n ≤ lsn') ∧
      ∀ b n b' n', (b, .ok n) ∈ final → (b', .ok n') ∈ final → b.id < b'.id → n < n' := by
  -- everything but a published member has failed
  have hfailed {c : Coordinator} {poisoned : Bool} {expired : ℕ → Bool} {walBytes : ℕ}
      {readings : GroupReadings} {accepted active : List (Prepared S)}
      {completed answers : List (Prepared S × Result ℕ)}
      (hvalid : c.validateGroup poisoned expired ∅ c.catalogRevision claimed =
        (accepted, completed))
      (hfault : ∀ m, readings.fault ≠ some (.commitUnknown m))
      (hgroup : commitGroup poisoned lsn walBytes limits.wal readings accepted =
        some (answers, active)) :
      List.Perm (completed.map Prod.fst ++ (answers.map Prod.fst ++ active)) claimed ∧
        active.Sublist claimed ∧ ∀ x ∈ completed ++ answers, ∃ e, x.2 = .error e := by
    obtain ⟨hperm, herror⟩ := Coordinator.validateGroup_perm hvalid
    obtain ⟨hsub, -⟩ := Coordinator.validateGroup_spec hvalid (by simp)
    obtain ⟨hperm', hsub', -, hunwritten⟩ := commitGroup_spec hfault hgroup
    refine ⟨(List.Perm.append_left _ hperm').trans hperm, hsub'.trans hsub, fun x hx => ?_⟩
    rcases List.mem_append.mp hx with hx | hx
    · obtain ⟨e, he, -⟩ := herror x hx
      exact ⟨e, he⟩
    · have hmem : x.1 ∈ claimed :=
        hsub.subset (hperm'.subset (List.mem_append_left _ (List.mem_map_of_mem hx)))
      rcases hunwritten x hx with ⟨hempty, -⟩ | ⟨e, he, -⟩
      · rw [hne x.1 hmem] at hempty
        cases hempty
      · exact ⟨e, he⟩
  have hnone {final : List (Prepared S × Result ℕ)} (herror : ∀ x ∈ final, ∃ e, x.2 = .error e)
      {b : Prepared S} {n : ℕ} : (b, .ok n) ∉ final := fun hmem => by
    obtain ⟨e, he⟩ := herror _ hmem
    cases he
  cases h with
  | rejected c poisoned expired walBytes readings accepted completed answers hvalid hfault
      hgroup =>
    obtain ⟨hperm, -, herror⟩ := hfailed hvalid hfault hgroup
    refine ⟨?_, le_rfl, fun b n hb => absurd hb (hnone herror),
      fun b n b' n' hb => absurd hb (hnone herror)⟩
    simpa using hperm
  | written c poisoned expired walBytes readings accepted active completed answers hvalid hfault
      hgroup =>
    obtain ⟨hperm, hsub, herror⟩ := hfailed hvalid hfault hgroup
    have hmem {b : Prepared S} {n : ℕ} :
        (b, .ok n) ∈ completed ++ (answers ++ published lsn active) →
          (b, n) ∈ active.zipIdx (lsn + 1) := fun hb => by
      rw [← List.append_assoc] at hb
      rcases List.mem_append.mp hb with hb | hb
      · exact absurd hb (hnone herror)
      · rw [published_eq] at hb
        obtain ⟨x, hx, heq⟩ := List.mem_map.mp hb
        cases heq
        exact hx
    refine ⟨by simpa using hperm, Nat.le_add_right _ _, fun b n hb => ?_,
      fun b n b' n' hb hb' hlt => ?_⟩
    · obtain ⟨hle, hlt, -⟩ := List.mem_zipIdx (hmem hb)
      omega
    · obtain ⟨hle, hlt₁, heq⟩ := List.mem_zipIdx (hmem hb)
      obtain ⟨hle', hlt₂, heq'⟩ := List.mem_zipIdx (hmem hb')
      rcases Nat.lt_trichotomy n n' with hlt' | rfl | hlt'
      · exact hlt'
      · rw [heq, heq'] at hlt
        exact absurd hlt (Nat.lt_irrefl _)
      · have horder' := List.pairwise_iff_getElem.mp (horder.sublist hsub) (n' - (lsn + 1))
          (n - (lsn + 1)) (by omega) (by omega) (by omega)
        rw [← heq, ← heq'] at horder'
        omega
  | failed c poisoned expired walBytes readings accepted active completed answers message hvalid
      hfault hgroup =>
    obtain ⟨hperm, -, herror⟩ := hfailed hvalid hfault hgroup
    have herror' : ∀ x ∈ completed ++ (answers ++ answerAll (.commitUnknown message) active),
        ∃ e, x.2 = .error e := fun x hx => by
      rw [← List.append_assoc] at hx
      rcases List.mem_append.mp hx with hx | hx
      · exact herror x hx
      · obtain ⟨b, -, rfl⟩ := List.mem_map.mp hx
        exact ⟨_, rfl⟩
    exact ⟨by simpa using hperm, le_rfl, fun b n hb => absurd hb (hnone herror'),
      fun b n b' n' hb => absurd hb (hnone herror')⟩
  | dropped lsn' hlsn =>
    have herror : ∀ x ∈ answerAll .needsRecovery claimed, ∃ e, x.2 = .error e := fun x hx => by
      obtain ⟨b, -, rfl⟩ := List.mem_map.mp hx
      exact ⟨_, rfl⟩
    exact ⟨by simp, hlsn, fun b n hb => absurd hb (hnone herror),
      fun b n b' n' hb => absurd hb (hnone herror)⟩

/-! ### The queue -/

/-- Behind the first transaction a claim stays within both bounds. -/
theorem Queue.claimed_bounds {bounds : GroupCommit} {taken bytes : ℕ}
    {waiting : List (Prepared S)} (htaken : 0 < taken) (hcount : taken ≤ bounds.maxTransactions)
    (hsum : bytes + (waiting.map Prepared.bytes).sum ≤ maxU64) :
    taken + Queue.claimed bounds taken bytes waiting ≤ bounds.maxTransactions ∧
      (Queue.claimed bounds taken bytes waiting = 0 ∨
        bytes + ((waiting.take (Queue.claimed bounds taken bytes waiting)).map
          Prepared.bytes).sum ≤ bounds.maxBytes) := by
  induction waiting generalizing taken bytes with
  | nil => exact ⟨hcount, Or.inl rfl⟩
  | cons b waiting ih =>
    rw [Queue.claimed]
    split_ifs with hstop
    · exact ⟨hcount, Or.inl rfl⟩
    · rw [List.map_cons, List.sum_cons] at hsum
      obtain ⟨hne, hle⟩ := not_or.mp fun h => hstop ⟨htaken.ne', h⟩
      obtain ⟨ihcount, ihbytes⟩ := ih (show 0 < taken + 1 by omega)
        (show taken + 1 ≤ bounds.maxTransactions by omega)
        (show bytes + b.bytes + (waiting.map Prepared.bytes).sum ≤ maxU64 by omega)
      have hfits : bytes + b.bytes ≤ bounds.maxBytes := by
        have hsat : saturatingAdd bytes b.bytes = bytes + b.bytes := min_eq_left (by omega)
        omega
      refine ⟨by omega, Or.inr ?_⟩
      rw [List.take_succ_cons, List.map_cons, List.sum_cons]
      rcases ihbytes with hzero | ihbytes
      · rw [hzero]
        simpa using hfits
      · omega

/-- A claim respects the bounds of a group, unless it is a single transaction. -/
theorem Queue.claim_bounds {bounds : GroupCommit} (hbounds : bounds.Valid) {queue : Queue S}
    (hbytes : (queue.waiting.map Prepared.bytes).sum ≤ maxU64) :
    (queue.claim bounds).length ≤ bounds.maxTransactions ∧
      (((queue.claim bounds).map Prepared.bytes).sum ≤ bounds.maxBytes ∨
        (queue.claim bounds).length ≤ 1) := by
  obtain ⟨waiting, count, bytes⟩ := queue
  cases waiting with
  | nil => exact ⟨Nat.zero_le _, Or.inr (Nat.zero_le _)⟩
  | cons b waiting =>
    rw [List.map_cons, List.sum_cons] at hbytes
    obtain ⟨hcount, hsum⟩ := Queue.claimed_bounds Nat.one_pos hbounds.1
      (by omega : 0 + b.bytes + (waiting.map Prepared.bytes).sum ≤ maxU64)
    have hclaim : Queue.claim bounds ⟨b :: waiting, count, bytes⟩ =
        b :: waiting.take (Queue.claimed bounds 1 (0 + b.bytes) waiting) := by
      simp [Queue.claim, Queue.claimed]
    rw [hclaim, List.length_cons, List.length_take]
    refine ⟨by omega, ?_⟩
    rcases hsum with hzero | hsum
    · right
      omega
    · left
      rw [List.map_cons, List.sum_cons]
      omega

/-- Finished transactions leave the totals. -/
theorem Queue.finish_eq (batches : List (Prepared S)) (queue : Queue S) :
    queue.finish batches = { queue with
      count := queue.count - batches.length
      bytes := queue.bytes - (batches.map Prepared.bytes).sum } := by
  induction batches generalizing queue with
  | nil => rfl
  | cons b batches ih =>
    have hrec : queue.finish (b :: batches) =
        Queue.finish batches
          { queue with count := queue.count - 1, bytes := queue.bytes - b.bytes } :=
      rfl
    rw [hrec, ih]
    simp only [List.length_cons, List.map_cons, List.sum_cons, Queue.mk.injEq, true_and]
    omega

/-! ### Leadership -/

/-- A caller is the leader. -/
def Caller.Leads : Caller S → Prop
  | .leading | .claimed _ => True
  | .absent | .looping | .returned _ => False

/-- **There is at most one leader**, and `claimed` is the group it has claimed. -/
structure Leadership (running : Bool) (callers : ℕ → Caller S) (claimed : List (Prepared S)) :
    Prop where
  running_iff : running = true ↔ ∃ i, (callers i).Leads
  unique : ∀ i j, (callers i).Leads → (callers j).Leads → i = j
  eq_claimed : ∀ i batches, callers i = .claimed batches → batches = claimed
  holds : claimed ≠ [] → ∃ i, callers i = .claimed claimed

namespace Leadership

variable {running : Bool} {callers : ℕ → Caller S} {claimed : List (Prepared S)} {i : ℕ}

/-- Without a leader nothing is claimed. -/
theorem claimed_eq_nil (h : Leadership running callers claimed)
    (hnone : ∀ j batches, callers j ≠ .claimed batches) : claimed = [] := by
  by_contra hne
  obtain ⟨j, hj⟩ := h.holds hne
  exact hnone j _ hj

/-- A leader that has not claimed a group is the only one. -/
theorem claimed_of_leading (h : Leadership running callers claimed)
    (hcaller : callers i = .leading) : claimed = [] := by
  refine h.claimed_eq_nil fun j batches hj => ?_
  have hij : i = j := h.unique i j (by simp [hcaller, Caller.Leads]) (by simp [hj, Caller.Leads])
  subst hij
  rw [hcaller] at hj
  cases hj

/-- A caller that does not lead takes a step, and does not lead behind it. -/
theorem idle (h : Leadership running callers claimed) {caller : Caller S}
    (hcaller : ¬ (callers i).Leads) (hafter : ¬ caller.Leads) :
    Leadership running (Function.update callers i caller) claimed := by
  have hiff (j : ℕ) : (Function.update callers i caller j).Leads ↔ (callers j).Leads := by
    rcases eq_or_ne j i with rfl | hne
    · simp [hcaller, hafter]
    · simp [hne]
  have hclaimed (j : ℕ) (batches : List (Prepared S)) :
      Function.update callers i caller j = .claimed batches ↔ callers j = .claimed batches := by
    rcases eq_or_ne j i with rfl | hne
    · rw [Function.update_self]
      constructor
      · rintro rfl
        exact absurd trivial hafter
      · intro heq
        rw [heq] at hcaller
        exact absurd trivial hcaller
    · rw [Function.update_of_ne hne]
  constructor
  · simpa only [hiff] using h.running_iff
  · simpa only [hiff] using h.unique
  · simpa only [hclaimed] using h.eq_claimed
  · simpa only [hclaimed] using h.holds

/-- A caller leads behind its step, and nobody else does. -/
theorem change {caller : Caller S} (honly : ∀ j, (callers j).Leads → j = i)
    (hafter : caller.Leads) (heq : ∀ batches, caller = .claimed batches → batches = claimed)
    (hholds : claimed ≠ [] → caller = .claimed claimed) :
    Leadership true (Function.update callers i caller) claimed := by
  have hleads {j : ℕ} (hj : (Function.update callers i caller j).Leads) : j = i := by
    by_contra hne
    rw [Function.update_of_ne hne] at hj
    exact hne (honly j hj)
  constructor
  · exact ⟨fun _ => ⟨i, by simpa using hafter⟩, fun _ => rfl⟩
  · exact fun j k hj hk => (hleads hj).trans (hleads hk).symm
  · intro j batches hj
    obtain rfl : j = i := hleads (by simp [hj, Caller.Leads])
    exact heq batches (by simpa using hj)
  · exact fun hne => ⟨i, by simpa using hholds hne⟩

/-- The leader steps down. -/
theorem release (h : Leadership running callers claimed) (hcaller : (callers i).Leads) :
    Leadership false (Function.update callers i .looping) [] := by
  have hnone (j : ℕ) : ¬ (Function.update callers i .looping j).Leads := by
    rcases eq_or_ne j i with rfl | hne
    · simp [Caller.Leads]
    · rw [Function.update_of_ne hne]
      exact fun hj => hne (h.unique j i hj hcaller)
  constructor
  · exact ⟨fun hfalse => (Bool.false_ne_true hfalse).elim, fun ⟨j, hj⟩ => (hnone j hj).elim⟩
  · exact fun j k hj => (hnone j hj).elim
  · exact fun j batches hj => (hnone j (by simp [hj, Caller.Leads])).elim
  · exact fun hne => (hne rfl).elim

end Leadership

/-! ### Accounts -/

/-- The requests without a result, in the order of their numbers: the claimed ones and the
waiting ones. -/
def Commits.pending (m : Commits S) (claimed : List (Prepared S)) : List (Prepared S) :=
  claimed ++ m.queue.waiting

/-- **The queue counts the unresolved requests.** -/
structure Commits.Accounts (m : Commits S) (claimed : List (Prepared S)) : Prop where
  batch_iff : ∀ i b, (m.requests i).batch = some b ↔ b ∈ m.queue.waiting ∧ b.id = i
  bytes_eq : ∀ b ∈ m.pending claimed, (m.requests b.id).bytes = b.bytes
  nonempty : ∀ b ∈ m.pending claimed, b.isEmpty = false
  order : (m.pending claimed).Pairwise fun b b' => b.id < b'.id
  unresolved : ∀ i, i < m.next ∧ i ∉ m.answers.map Prod.fst ↔
    i ∈ (m.pending claimed).map Prepared.id
  count : m.queue.count = (m.pending claimed).length
  bytes : m.queue.bytes = ((m.pending claimed).map Prepared.bytes).sum
  bytes_le : m.queue.bytes ≤ maxU64

/-- **Every result is given once**, and is on its way to the caller or has reached it. -/
structure Commits.Ledger (m : Commits S) (claimed : List (Prepared S)) : Prop where
  absent : ∀ i, m.callers i = .absent ↔ m.next ≤ i
  answered : ∀ i ∈ m.answers.map Prod.fst, i < m.next
  nodup : (m.answers.map Prod.fst).Nodup
  delivered : ∀ i r, (i, r) ∈ m.answers ↔
    (m.requests i).result = some r ∨ m.callers i = .returned r
  taken : ∀ i r, m.callers i = .returned r → (m.requests i).result = none
  numbered : ∀ i n, (i, .ok n) ∈ m.answers → n ≤ m.lsn ∧ ∀ b ∈ m.pending claimed, i < b.id
  ascending : ∀ i n j n', (i, .ok n) ∈ m.answers → (j, .ok n') ∈ m.answers → i < j → n < n'

/-- **Requests are claimed in order, within the bounds, and not when they are
withdrawn.** -/
structure Commits.History (limits : Limits) (m : Commits S) : Prop where
  order : (m.groups.flatten ++ m.queue.waiting).Pairwise fun b b' => b.id < b'.id
  submitted : ∀ b ∈ m.groups.flatten, b.id < m.next
  resolved : ∀ i ∈ m.cancels, i ∈ m.answers.map Prod.fst
  nodup : m.cancels.Nodup
  disjoint : ∀ b ∈ m.groups.flatten, b.id ∉ m.cancels
  bounds : ∀ group ∈ m.groups, group.length ≤ limits.group.maxTransactions ∧
    ((group.map Prepared.bytes).sum ≤ limits.group.maxBytes ∨ group.length ≤ 1)

/-- The invariant of the queue and its callers. -/
structure Commits.Inv (limits : Limits) (m : Commits S) (claimed : List (Prepared S)) :
    Prop where
  leadership : Leadership m.running m.callers claimed
  accounts : m.Accounts claimed
  ledger : m.Ledger claimed
  history : m.History limits

/-! ### Requests -/

/-- The result of a request is apart from its transaction and its bytes. -/
theorem batch_update (requests : ℕ → Request S) (i j : ℕ) (result : Option (Result ℕ)) :
    (Function.update requests i { requests i with result } j).batch = (requests j).batch ∧
      (Function.update requests i { requests i with result } j).bytes = (requests j).bytes := by
  rcases eq_or_ne j i with rfl | hne
  · simp
  · simp [hne]

@[simp]
theorem result_claimRequests (batches : List (Prepared S)) (requests : ℕ → Request S) (i : ℕ) :
    (claimRequests batches requests i).result = (requests i).result := by
  unfold claimRequests
  split <;> rfl

@[simp]
theorem bytes_claimRequests (batches : List (Prepared S)) (requests : ℕ → Request S) (i : ℕ) :
    (claimRequests batches requests i).bytes = (requests i).bytes := by
  unfold claimRequests
  split <;> rfl

/-- A claimed request has lost its transaction. -/
theorem batch_claimRequests (batches : List (Prepared S)) (requests : ℕ → Request S) (i : ℕ)
    (b : Prepared S) : (claimRequests batches requests i).batch = some b ↔
      i ∉ batches.map Prepared.id ∧ (requests i).batch = some b := by
  unfold claimRequests
  split_ifs with hi
  · simp [hi]
  · simp [hi]

@[simp]
theorem batch_answerRequests (answers : List (ℕ × Result ℕ)) (requests : ℕ → Request S) (i : ℕ) :
    (answerRequests answers requests i).batch = (requests i).batch := by
  unfold answerRequests
  split <;> rfl

@[simp]
theorem bytes_answerRequests (answers : List (ℕ × Result ℕ)) (requests : ℕ → Request S) (i : ℕ) :
    (answerRequests answers requests i).bytes = (requests i).bytes := by
  unfold answerRequests
  split <;> rfl

/-- A request that is not among the answered ones keeps what it has. -/
theorem answerRequests_of_notMem {answers : List (ℕ × Result ℕ)} {requests : ℕ → Request S}
    {i : ℕ} (hi : i ∉ answers.map Prod.fst) :
    (answerRequests answers requests i).result = (requests i).result := by
  have hnone : answers.find? (fun answer => answer.1 = i) = none := by
    rw [List.find?_eq_none]
    rintro ⟨j, r⟩ hmem heq
    exact hi (List.mem_map.mpr ⟨_, hmem, of_decide_eq_true heq⟩)
  rw [answerRequests, hnone]

/-- An answered request has its result. -/
theorem answerRequests_of_mem {answers : List (ℕ × Result ℕ)} {requests : ℕ → Request S} {i : ℕ}
    {r : Result ℕ} (hnodup : (answers.map Prod.fst).Nodup) (hi : (i, r) ∈ answers) :
    (answerRequests answers requests i).result = some r := by
  have hsome : answers.find? (fun answer => answer.1 = i) = some (i, r) := by
    induction answers with
    | nil => cases hi
    | cons answer answers ih =>
      obtain ⟨hnotMem, hnodup⟩ := List.nodup_cons.mp hnodup
      rcases List.mem_cons.mp hi with rfl | hi
      · exact List.find?_cons_of_pos (by simp)
      · have hne : answer.1 ≠ i := fun heq =>
          hnotMem (List.mem_map.mpr ⟨_, hi, heq.symm⟩)
        rw [List.find?_cons_of_neg (by simpa using hne)]
        exact ih hnodup hi
  rw [answerRequests, hsome]

/-- A caller is in the loop of `commit`, as the leader or not. -/
def Caller.InLoop : Caller S → Prop
  | .looping | .leading | .claimed _ => True
  | .absent | .returned _ => False

/-- Who has called, and who has returned, does not change in the loop. -/
theorem Caller.update_iff {callers : ℕ → Caller S} {i : ℕ} (caller : Caller S)
    (hbefore : (callers i).InLoop) (hafter : caller.InLoop) (j : ℕ) :
    (Function.update callers i caller j = .absent ↔ callers j = .absent) ∧
      ∀ r, Function.update callers i caller j = .returned r ↔ callers j = .returned r := by
  rcases eq_or_ne j i with rfl | hne
  · rw [Function.update_self]
    constructor
    · constructor
      · rintro rfl
        exact hafter.elim
      · intro heq
        rw [heq] at hbefore
        exact hbefore.elim
    · intro r
      constructor
      · rintro rfl
        exact hafter.elim
      · intro heq
        rw [heq] at hbefore
        exact hbefore.elim
  · rw [Function.update_of_ne hne]
    exact ⟨Iff.rfl, fun r => Iff.rfl⟩

/-! ### Steps -/

/-- What admission to the queue does. -/
theorem Queue.submit_spec {limits : QueueLimits} {batch : Prepared S} {queue queue' : Queue S}
    (h : queue.submit limits batch = .ok queue') :
    queue' = ⟨queue.waiting ++ [batch], queue.count + 1, queue.bytes + batch.bytes⟩ ∧
      queue.bytes + batch.bytes ≤ maxU64 := by
  obtain ⟨_, -, h⟩ := bind_eq_ok.mp h
  obtain ⟨_, hbytes, h⟩ := bind_eq_ok.mp h
  unfold check at hbytes
  split_ifs at hbytes with hfits
  cases h
  exact ⟨rfl, hfits.1⟩

/-- A withdrawn transaction leaves the queue, and the others stay in order. -/
theorem Queue.waiting_cancel {queue : Queue S} {batch : Prepared S}
    (horder : queue.waiting.Pairwise fun b b' => b.id < b'.id) (hbatch : batch ∈ queue.waiting) :
    ∃ l₁ l₂, queue.waiting = l₁ ++ batch :: l₂ ∧ (queue.cancel batch).waiting = l₁ ++ l₂ := by
  obtain ⟨l₁, l₂, hsplit⟩ := List.append_of_mem hbatch
  refine ⟨l₁, l₂, hsplit, ?_⟩
  rw [hsplit] at horder
  obtain ⟨-, hright, hleft⟩ := List.pairwise_append.mp horder
  have hkeep {l : List (Prepared S)} (hl : ∀ b ∈ l, b.id ≠ batch.id) :
      l.filter (fun waiting => waiting.id ≠ batch.id) = l :=
    List.filter_eq_self.mpr fun b hb => by simpa using hl b hb
  have hbatch : (batch :: l₂).filter (fun waiting => waiting.id ≠ batch.id) =
      l₂.filter fun waiting => waiting.id ≠ batch.id := by simp
  change queue.waiting.filter _ = _
  rw [hsplit, List.filter_append, hbatch,
    hkeep fun b hb => (hleft b hb batch List.mem_cons_self).ne,
    hkeep fun b hb => ((List.pairwise_cons.mp hright).1 b hb).ne']

/-- **A submitted request waits behind all others.** -/
theorem Commits.Inv.submit {limits : Limits} {m : Commits S} {claimed : List (Prepared S)}
    (h : m.Inv limits claimed) {batch : Prepared S} {queue : Queue S}
    (hid : batch.id = m.next) (hne : batch.isEmpty = false)
    (hsubmit : m.queue.submit limits.queue batch = .ok queue) :
    Commits.Inv limits
      { m with
        queue
        next := m.next + 1
        requests := Function.update m.requests m.next ⟨some batch, none, batch.bytes⟩
        callers := Function.update m.callers m.next .looping } claimed := by
  obtain ⟨rfl, hbytes⟩ := Queue.submit_spec hsubmit
  obtain ⟨hlead, hacc, hled, hhist⟩ := h
  have habsent : m.callers m.next = .absent := (hled.absent _).mpr le_rfl
  have hlt {b : Prepared S} (hb : b ∈ m.pending claimed) : b.id < m.next :=
    ((hacc.unresolved _).mpr (List.mem_map_of_mem hb)).1
  have hpending : Commits.pending
      { m with
        queue := ⟨m.queue.waiting ++ [batch], m.queue.count + 1, m.queue.bytes + batch.bytes⟩
        next := m.next + 1
        requests := Function.update m.requests m.next ⟨some batch, none, batch.bytes⟩
        callers := Function.update m.callers m.next .looping } claimed =
      m.pending claimed ++ [batch] := (List.append_assoc _ _ _).symm
  refine ⟨hlead.idle (by simp [habsent, Caller.Leads]) (by simp [Caller.Leads]), ?_, ?_, ?_⟩
  · constructor
    · intro i b
      rcases eq_or_ne i m.next with rfl | hi
      · have hb : ¬ (b ∈ m.queue.waiting ∧ b.id = m.next) := fun ⟨hb, heq⟩ =>
          (hlt (List.mem_append_right _ hb)).ne heq
        simp only [Function.update_self, Option.some.injEq, List.mem_append, List.mem_singleton]
        grind
      · simp only [Function.update_of_ne hi, hacc.batch_iff, List.mem_append,
          List.mem_singleton]
        grind
    · rw [hpending]
      intro b hb
      rcases List.mem_append.mp hb with hb | hb
      · simp only [Function.update_of_ne (hlt hb).ne]
        exact hacc.bytes_eq b hb
      · obtain rfl := List.mem_singleton.mp hb
        simp only [hid, Function.update_self]
    · rw [hpending]
      intro b hb
      rcases List.mem_append.mp hb with hb | hb
      · exact hacc.nonempty b hb
      · obtain rfl := List.mem_singleton.mp hb
        exact hne
    · rw [hpending, List.pairwise_append]
      refine ⟨hacc.order, List.pairwise_singleton _ _, fun b hb b' hb' => ?_⟩
      obtain rfl := List.mem_singleton.mp hb'
      rw [hid]
      exact hlt hb
    · intro i
      have hfresh : m.next ∉ m.answers.map Prod.fst := fun hmem =>
        Nat.lt_irrefl _ (hled.answered _ hmem)
      have hold := hacc.unresolved i
      rw [hpending, List.map_append, List.mem_append, ← hold, List.map_singleton,
        List.mem_singleton, hid]
      grind
    · rw [hpending]
      simp [hacc.count]
    · rw [hpending]
      simp [hacc.bytes]
    · exact hbytes
  · constructor
    · intro i
      rcases eq_or_ne i m.next with rfl | hi
      · simp
      · simp only [Function.update_of_ne hi, hled.absent]
        omega
    · exact fun i hi => Nat.lt_succ_of_lt (hled.answered i hi)
    · exact hled.nodup
    · intro i r
      rcases eq_or_ne i m.next with rfl | hi
      · simp only [Function.update_self]
        refine ⟨fun hmem => ?_, fun hfalse => ?_⟩
        · exact absurd (hled.answered _ (List.mem_map_of_mem hmem)) (Nat.lt_irrefl _)
        · rcases hfalse with hfalse | hfalse <;> cases hfalse
      · simp only [Function.update_of_ne hi]
        exact hled.delivered i r
    · intro i r
      rcases eq_or_ne i m.next with rfl | hi
      · simp
      · simp only [Function.update_of_ne hi]
        exact hled.taken i r
    · rw [hpending]
      intro i n hmem
      obtain ⟨hn, hbehind⟩ := hled.numbered i n hmem
      refine ⟨hn, fun b hb => ?_⟩
      rcases List.mem_append.mp hb with hb | hb
      · exact hbehind b hb
      · obtain rfl := List.mem_singleton.mp hb
        rw [hid]
        exact hled.answered i (List.mem_map_of_mem hmem)
    · exact hled.ascending
  · constructor
    · change (m.groups.flatten ++ (m.queue.waiting ++ [batch])).Pairwise _
      rw [← List.append_assoc, List.pairwise_append]
      refine ⟨hhist.order, List.pairwise_singleton _ _, fun b hb b' hb' => ?_⟩
      obtain rfl := List.mem_singleton.mp hb'
      rw [hid]
      rcases List.mem_append.mp hb with hb | hb
      · exact hhist.submitted b hb
      · exact hlt (List.mem_append_right _ hb)
    · exact fun b hb => Nat.lt_succ_of_lt (hhist.submitted b hb)
    · exact hhist.resolved
    · exact hhist.nodup
    · exact hhist.disjoint
    · exact hhist.bounds

/-- A caller that takes its result leaves everything else as it is. -/
theorem Commits.Inv.take {limits : Limits} {m : Commits S} {claimed : List (Prepared S)}
    (h : m.Inv limits claimed) {i : ℕ} {result : Result ℕ} (hcaller : m.callers i = .looping)
    (hresult : (m.requests i).result = some result) :
    Commits.Inv limits
      { m with
        requests := Function.update m.requests i { m.requests i with result := none }
        callers := Function.update m.callers i (.returned result) } claimed := by
  obtain ⟨hlead, hacc, hled, hhist⟩ := h
  refine ⟨hlead.idle (by simp [hcaller, Caller.Leads]) (by simp [Caller.Leads]), ?_, ?_,
    { hhist with }⟩
  · refine { hacc with batch_iff := fun j b => ?_, bytes_eq := fun b hb => ?_ }
    · rw [(batch_update m.requests i j none).1]
      exact hacc.batch_iff j b
    · rw [(batch_update m.requests i b.id none).2]
      exact hacc.bytes_eq b hb
  · refine { hled with
      absent := fun j => ?_, delivered := fun j r => ?_, taken := fun j r hj => ?_ }
    · rcases eq_or_ne j i with rfl | hne
      · simpa [hcaller] using (hled.absent j).not
      · simpa [hne] using hled.absent j
    · rcases eq_or_ne j i with rfl | hne
      · simp [hled.delivered, hresult, hcaller]
      · simpa [hne] using hled.delivered j r
    · rcases eq_or_ne j i with rfl | hne
      · simp
      · simp only [Function.update_of_ne hne] at hj ⊢
        exact hled.taken j r hj

/-! ### Withdrawing -/

/-- A request is withdrawn: it leaves the queue, and has missed its deadline. -/
def Commits.cancelled (m : Commits S) (i : ℕ) (batch : Prepared S) : Commits S :=
  { m with
    queue := m.queue.cancel batch
    requests := Function.update m.requests i
      { m.requests i with batch := none, result := some (.error .deadlineExceeded) }
    cancels := m.cancels ++ [i]
    answers := m.answers ++ [(i, .error .deadlineExceeded)] }

section Cancel

variable {m : Commits S} {claimed : List (Prepared S)} {batch : Prepared S}

theorem Commits.answers_cancelled : (m.cancelled batch.id batch).answers.map Prod.fst =
    m.answers.map Prod.fst ++ [batch.id] := List.map_append

/-- **Where a request waits** in the order of their numbers, and what is left without it. -/
theorem Commits.Accounts.exists_waiting (h : m.Accounts claimed)
    (hwaiting : batch ∈ m.queue.waiting) :
    ∃ l₁ l₂, m.queue.waiting = l₁ ++ batch :: l₂ ∧ (m.queue.cancel batch).waiting = l₁ ++ l₂ ∧
      ∀ b ∈ claimed ++ (l₁ ++ l₂), b.id ≠ batch.id := by
  obtain ⟨l₁, l₂, hsplit, hrest⟩ := Queue.waiting_cancel
    (h.order.sublist (List.sublist_append_right _ _)) hwaiting
  refine ⟨l₁, l₂, hsplit, hrest, fun b hb => ?_⟩
  have horder := h.order
  rw [Commits.pending, hsplit, ← List.append_assoc] at horder
  obtain ⟨-, hright, hleft⟩ := List.pairwise_append.mp horder
  rw [← List.append_assoc, List.mem_append] at hb
  rcases hb with hb | hb
  · exact (hleft b hb batch List.mem_cons_self).ne
  · exact ((List.pairwise_cons.mp hright).1 b hb).ne'

/-- What is left waits in the same order. -/
theorem Commits.Accounts.sublist_cancel (h : m.Accounts claimed)
    (hwaiting : batch ∈ m.queue.waiting) :
    (m.queue.cancel batch).waiting.Sublist m.queue.waiting := by
  obtain ⟨l₁, l₂, hsplit, hrest, -⟩ := h.exists_waiting hwaiting
  rw [hrest, hsplit]
  exact (List.sublist_cons_self _ _).append_left _

/-- A request that waits has no result. -/
theorem Commits.Accounts.unresolved_waiting (h : m.Accounts claimed)
    (hwaiting : batch ∈ m.queue.waiting) :
    batch.id < m.next ∧ batch.id ∉ m.answers.map Prod.fst :=
  (h.unresolved batch.id).mpr (List.mem_map_of_mem (List.mem_append_right _ hwaiting))

/-- **Without the request the queue counts the others.** -/
theorem Commits.Accounts.cancel (h : m.Accounts claimed) (hwaiting : batch ∈ m.queue.waiting) :
    (m.cancelled batch.id batch).Accounts claimed := by
  obtain ⟨l₁, l₂, hsplit, hrest, hother⟩ := h.exists_waiting hwaiting
  have hpending : m.pending claimed = claimed ++ (l₁ ++ batch :: l₂) := by
    rw [Commits.pending, hsplit]
  have hleft : (m.cancelled batch.id batch).pending claimed = claimed ++ (l₁ ++ l₂) := by
    rw [Commits.pending, ← hrest]
    rfl
  have hsub : (claimed ++ (l₁ ++ l₂)).Sublist (m.pending claimed) := by
    rw [hpending]
    exact ((List.sublist_cons_self _ _).append_left _).append_left _
  constructor
  · intro j b
    change (Function.update m.requests batch.id _ j).batch = some b ↔
      b ∈ (m.queue.cancel batch).waiting ∧ b.id = j
    rw [hrest]
    rcases eq_or_ne j batch.id with rfl | hne
    · rw [Function.update_self]
      refine ⟨nofun, fun ⟨hb, heq⟩ => ?_⟩
      exact absurd heq (hother b (List.mem_append_right _ hb))
    · rw [Function.update_of_ne hne, h.batch_iff, hsplit]
      refine and_congr_left fun heq => ?_
      have hbatch : b ≠ batch := fun hc => hne (heq ▸ congrArg _ hc)
      simp [hbatch]
  · rw [hleft]
    intro b hb
    change (Function.update m.requests batch.id _ b.id).bytes = b.bytes
    rw [Function.update_of_ne (hother b hb)]
    exact h.bytes_eq b (hsub.subset hb)
  · rw [hleft]
    exact fun b hb => h.nonempty b (hsub.subset hb)
  · rw [hleft]
    exact h.order.sublist hsub
  · intro j
    -- the number of the request is that of no other one
    have hothers : batch.id ∉ (claimed ++ (l₁ ++ l₂)).map Prepared.id := by
      rw [List.mem_map]
      rintro ⟨b, hb, heq⟩
      exact hother b hb heq
    have hold := h.unresolved j
    rw [hpending] at hold
    rw [hleft, answers_cancelled]
    rcases eq_or_ne j batch.id with rfl | hne
    · exact ⟨fun ⟨_, hnot⟩ => absurd (List.mem_append_right _ List.mem_cons_self) hnot,
        fun hmem => absurd hmem hothers⟩
    · change j < m.next ∧ _ ↔ _
      simp only [List.map_append, List.map_cons, List.mem_append, List.mem_cons,
        List.not_mem_nil, hne, false_or, or_false] at hold ⊢
      exact hold
  · change m.queue.count - 1 = _
    rw [h.count, hpending, hleft]
    simp only [List.length_append, List.length_cons]
    omega
  · change m.queue.bytes - batch.bytes = _
    rw [h.bytes, hpending, hleft]
    simp only [List.map_append, List.map_cons, List.sum_append, List.sum_cons]
    omega
  · exact (Nat.sub_le _ _).trans h.bytes_le

/-- **The request gets its only result.** -/
theorem Commits.Ledger.cancel (h : m.Ledger claimed) (hcaller : m.callers batch.id = .looping)
    (hunresolved : batch.id < m.next ∧ batch.id ∉ m.answers.map Prod.fst)
    (hsub : (m.cancelled batch.id batch).pending claimed ⊆ m.pending claimed) :
    (m.cancelled batch.id batch).Ledger claimed := by
  have hanswers {j : ℕ} {n : ℕ} (hj : (j, .ok n) ∈ (m.cancelled batch.id batch).answers) :
      (j, .ok n) ∈ m.answers :=
    (List.mem_append.mp hj).resolve_right fun hj => by cases List.mem_singleton.mp hj
  constructor
  · exact h.absent
  · rw [answers_cancelled]
    intro j hj
    rcases List.mem_append.mp hj with hj | hj
    · exact h.answered j hj
    · obtain rfl := List.mem_singleton.mp hj
      exact hunresolved.1
  · rw [answers_cancelled]
    refine List.nodup_append.mpr ⟨h.nodup, List.nodup_singleton _, ?_⟩
    rintro j hj k hk rfl
    obtain rfl : j = batch.id := List.mem_singleton.mp hk
    exact hunresolved.2 hj
  · intro j r
    change (j, r) ∈ m.answers ++ [_] ↔
      (Function.update m.requests batch.id _ j).result = some r ∨ m.callers j = .returned r
    rw [List.mem_append, List.mem_singleton, h.delivered j r]
    rcases eq_or_ne j batch.id with rfl | hne
    · have hnone : (m.requests batch.id).result ≠ some r := fun hr =>
        hunresolved.2 (List.mem_map_of_mem ((h.delivered _ r).mpr (Or.inl hr)))
      simp [hnone, hcaller, eq_comm]
    · simp [hne]
  · intro j r hj
    have hne : j ≠ batch.id := by
      rintro rfl
      cases hcaller.symm.trans hj
    change (Function.update m.requests batch.id _ j).result = none
    rw [Function.update_of_ne hne]
    exact h.taken j r hj
  · intro j n hj
    obtain ⟨hn, hbehind⟩ := h.numbered j n (hanswers hj)
    exact ⟨hn, fun b hb => hbehind b (hsub hb)⟩
  · exact fun j n k n' hj hk => h.ascending j n k n' (hanswers hj) (hanswers hk)

/-- The request has not been claimed, and is not claimed later. -/
theorem Commits.History.cancel {limits : Limits} (h : m.History limits)
    (hwaiting : batch ∈ m.queue.waiting) (hfresh : batch.id ∉ m.answers.map Prod.fst)
    (hsub : (m.queue.cancel batch).waiting.Sublist m.queue.waiting) :
    (m.cancelled batch.id batch).History limits := by
  constructor
  · exact h.order.sublist ((List.Sublist.refl _).append hsub)
  · exact h.submitted
  · rw [answers_cancelled]
    intro j hj
    rcases List.mem_append.mp hj with hj | hj
    · exact List.mem_append_left _ (h.resolved j hj)
    · exact List.mem_append_right _ hj
  · refine List.nodup_append.mpr ⟨h.nodup, List.nodup_singleton _, ?_⟩
    rintro j hj k hk rfl
    obtain rfl : j = batch.id := List.mem_singleton.mp hk
    exact hfresh (h.resolved _ hj)
  · intro b hb hmem
    rcases List.mem_append.mp hmem with hmem | hmem
    · exact h.disjoint b hb hmem
    · have hlt := (List.pairwise_append.mp h.order).2.2 b hb batch hwaiting
      exact hlt.ne (List.mem_singleton.mp hmem)
  · exact h.bounds

/-- **A withdrawn request has not been claimed.** -/
theorem Commits.Inv.cancel {limits : Limits} (h : m.Inv limits claimed) {i : ℕ}
    (hcaller : m.callers i = .looping) (hbatch : (m.requests i).batch = some batch) :
    (m.cancelled i batch).Inv limits claimed := by
  obtain ⟨hlead, hacc, hled, hhist⟩ := h
  obtain ⟨hwaiting, rfl⟩ := (hacc.batch_iff _ _).mp hbatch
  have hunresolved := hacc.unresolved_waiting hwaiting
  have hsub := hacc.sublist_cancel hwaiting
  exact ⟨hlead, hacc.cancel hwaiting,
    hled.cancel hcaller hunresolved (hsub.append_left _).subset,
    hhist.cancel hwaiting hunresolved.2 hsub⟩

end Cancel

/-! ### Leading -/

/-- Callers that stay in the loop keep the ledger. -/
theorem Commits.Ledger.inLoop {m : Commits S} {claimed : List (Prepared S)}
    (h : m.Ledger claimed) {i : ℕ} {caller : Caller S} (running : Bool)
    (hbefore : (m.callers i).InLoop) (hafter : caller.InLoop) :
    Commits.Ledger { m with running, callers := Function.update m.callers i caller } claimed := by
  have hiff (j : ℕ) := Caller.update_iff _ hbefore hafter j
  refine { h with absent := fun j => ?_, delivered := fun j r => ?_, taken := fun j r => ?_ }
  · simpa only [(hiff j).1] using h.absent j
  · simpa only [(hiff j).2] using h.delivered j r
  · simpa only [(hiff j).2] using h.taken j r

/-- A caller becomes the leader when there is none. -/
theorem Commits.Inv.lead {limits : Limits} {m : Commits S} {claimed : List (Prepared S)}
    (h : m.Inv limits claimed) {i : ℕ} (hcaller : m.callers i = .looping)
    (hrunning : m.running = false) :
    Commits.Inv limits
      { m with running := true, callers := Function.update m.callers i .leading } claimed := by
  obtain ⟨hlead, hacc, hled, hhist⟩ := h
  have hnone (j : ℕ) : ¬ (m.callers j).Leads := fun hj => by
    have htrue := hlead.running_iff.mpr ⟨j, hj⟩
    rw [hrunning] at htrue
    cases htrue
  obtain rfl : claimed = [] := hlead.claimed_eq_nil fun j batches hj =>
    hnone j (by simp [hj, Caller.Leads])
  have hinLoop : (m.callers i).InLoop := by simp [hcaller, Caller.InLoop]
  exact ⟨Leadership.change (fun j hj => (hnone j hj).elim) trivial (fun _ heq => nomatch heq)
    fun hne => (hne rfl).elim, { hacc with }, hled.inLoop true hinLoop trivial, { hhist with }⟩

/-- A leader that has claimed nothing hands leadership back. -/
theorem Commits.Inv.giveUp {limits : Limits} {m : Commits S} {claimed : List (Prepared S)}
    (h : m.Inv limits claimed) {i : ℕ} (hcaller : m.callers i = .leading) :
    Commits.Inv limits
      { m with running := false, callers := Function.update m.callers i .looping } claimed := by
  obtain ⟨hlead, hacc, hled, hhist⟩ := h
  obtain rfl : claimed = [] := hlead.claimed_of_leading hcaller
  have hinLoop : (m.callers i).InLoop := by simp [hcaller, Caller.InLoop]
  exact ⟨hlead.release (by simp [hcaller, Caller.Leads]), { hacc with },
    hled.inLoop false hinLoop trivial, { hhist with }⟩

/-- **A claim moves the front of the queue to the leader**, and counts as unresolved what it
has counted before. -/
theorem Commits.Inv.claim {limits : Limits} {m : Commits S} {claimed : List (Prepared S)}
    (h : m.Inv limits claimed) (hbounds : limits.group.Valid) {i : ℕ}
    (hcaller : m.callers i = .leading) :
    Commits.Inv limits
      { m with
        queue := m.queue.rest limits.group
        requests := claimRequests (m.queue.claim limits.group) m.requests
        callers := Function.update m.callers i (.claimed (m.queue.claim limits.group))
        groups := m.groups ++ [m.queue.claim limits.group] } (m.queue.claim limits.group) := by
  obtain ⟨hlead, hacc, hled, hhist⟩ := h
  obtain rfl : claimed = [] := hlead.claimed_of_leading hcaller
  have hinLoop : (m.callers i).InLoop := by simp [hcaller, Caller.InLoop]
  have hleads : (m.callers i).Leads := by simp [hcaller, Caller.Leads]
  have hsplit := m.queue.claim_append_rest limits.group
  have hpending : Commits.pending
      { m with
        queue := m.queue.rest limits.group
        requests := claimRequests (m.queue.claim limits.group) m.requests
        callers := Function.update m.callers i (.claimed (m.queue.claim limits.group))
        groups := m.groups ++ [m.queue.claim limits.group] } (m.queue.claim limits.group) =
      m.pending [] := hsplit
  have hnil : m.pending [] = m.queue.waiting := rfl
  have hflatten : (m.groups ++ [m.queue.claim limits.group]).flatten =
      m.groups.flatten ++ m.queue.claim limits.group := by simp
  have hclaimed : ∀ b ∈ m.queue.claim limits.group, b ∈ m.queue.waiting := fun b hb =>
    List.mem_of_mem_take hb
  refine ⟨?_, ?_, ?_, ?_⟩
  · rw [hlead.running_iff.mpr ⟨i, hleads⟩]
    exact Leadership.change (fun j hj => hlead.unique j i hj hleads) trivial
      (fun batches heq => by injection heq with heq; exact heq.symm) fun _ => rfl
  · constructor
    · intro j b
      change (claimRequests _ m.requests j).batch = some b ↔ _
      rw [batch_claimRequests, hacc.batch_iff, ← hsplit, List.mem_append]
      have horder := hacc.order
      rw [hnil, ← hsplit, List.pairwise_append] at horder
      constructor
      · rintro ⟨hj, hb | hb, rfl⟩
        · exact absurd (List.mem_map_of_mem hb) hj
        · exact ⟨hb, rfl⟩
      · rintro ⟨hb, rfl⟩
        refine ⟨fun hmem => ?_, Or.inr hb, rfl⟩
        obtain ⟨b', hb', heq⟩ := List.mem_map.mp hmem
        exact (horder.2.2 b' hb' b hb).ne heq
    · rw [hpending]
      intro b hb
      rw [bytes_claimRequests]
      exact hacc.bytes_eq b hb
    · rw [hpending]
      exact hacc.nonempty
    · rw [hpending]
      exact hacc.order
    · rw [hpending]
      exact hacc.unresolved
    · rw [hpending]
      exact hacc.count
    · rw [hpending]
      exact hacc.bytes
    · exact hacc.bytes_le
  · have hiff (j : ℕ) := Caller.update_iff
      (.claimed (m.queue.claim limits.group)) hinLoop trivial j
    refine { hled with
      absent := fun j => ?_, delivered := fun j r => ?_, taken := fun j r => ?_,
      numbered := ?_ }
    · simpa only [(hiff j).1] using hled.absent j
    · simpa only [(hiff j).2, result_claimRequests] using hled.delivered j r
    · simpa only [(hiff j).2, result_claimRequests] using hled.taken j r
    · rw [hpending]
      exact hled.numbered
  · constructor
    · rw [hflatten, List.append_assoc, hsplit]
      exact hhist.order
    · rw [hflatten]
      intro b hb
      rcases List.mem_append.mp hb with hb | hb
      · exact hhist.submitted b hb
      · exact ((hacc.unresolved _).mpr (List.mem_map_of_mem (hclaimed b hb))).1
    · exact hhist.resolved
    · exact hhist.nodup
    · rw [hflatten]
      intro b hb hmem
      rcases List.mem_append.mp hb with hb | hb
      · exact hhist.disjoint b hb hmem
      · exact ((hacc.unresolved _).mpr (List.mem_map_of_mem (hclaimed b hb))).2
          (hhist.resolved _ hmem)
    · intro group hgroup
      rcases List.mem_append.mp hgroup with hgroup | hgroup
      · exact hhist.bounds group hgroup
      · obtain rfl := List.mem_singleton.mp hgroup
        refine Queue.claim_bounds hbounds ?_
        have hbytes := hacc.bytes_le
        rw [hacc.bytes] at hbytes
        exact hbytes

/-! ### Finishing -/

/-- The results of a group, by the numbers of its requests. -/
def resultsOf (final : List (Prepared S × Result ℕ)) : List (ℕ × Result ℕ) :=
  final.map fun x => (x.1.id, x.2)

theorem map_fst_resultsOf (final : List (Prepared S × Result ℕ)) :
    (resultsOf final).map Prod.fst = (final.map Prod.fst).map Prepared.id := by
  simp [resultsOf]

theorem mem_resultsOf {final : List (Prepared S × Result ℕ)} {j : ℕ} {r : Result ℕ} :
    (j, r) ∈ resultsOf final ↔ ∃ b, (b, r) ∈ final ∧ b.id = j := by
  simp only [resultsOf, List.mem_map, Prod.mk.injEq, Prod.exists]
  constructor
  · rintro ⟨b, r', hmem, rfl, rfl⟩
    exact ⟨b, hmem, rfl⟩
  · rintro ⟨b, hmem, rfl⟩
    exact ⟨b, r, hmem, rfl, rfl⟩

/-- A group is finished: its requests leave the queue with their results, and the leader steps
down. -/
def Commits.finished (m : Commits S) (i : ℕ) (final : List (Prepared S × Result ℕ)) (lsn : ℕ) :
    Commits S :=
  { m with
    queue := m.queue.finish (final.map Prod.fst)
    running := false
    requests := answerRequests (resultsOf final) m.requests
    callers := Function.update m.callers i .looping
    lsn
    answers := m.answers ++ resultsOf final }

section Finish

variable {m : Commits S} {batches : List (Prepared S)} {final : List (Prepared S × Result ℕ)}
  {i lsn : ℕ}

/-- Behind the group only those that wait are unresolved. -/
theorem Commits.pending_finished : (m.finished i final lsn).pending [] = m.queue.waiting :=
  Queue.waiting_finish _ _

theorem Commits.answers_finished : (m.finished i final lsn).answers.map Prod.fst =
    m.answers.map Prod.fst ++ (final.map Prod.fst).map Prepared.id := by
  rw [← map_fst_resultsOf]
  exact List.map_append

/-- The members of the group had no results. -/
theorem Commits.Accounts.unanswered (h : m.Accounts batches)
    (hperm : (final.map Prod.fst).Perm batches) {b : Prepared S} {r : Result ℕ}
    (hb : (b, r) ∈ final) : b ∈ batches ∧ b.id < m.next ∧ b.id ∉ m.answers.map Prod.fst := by
  have hmem : b ∈ batches := hperm.subset (List.mem_map_of_mem hb)
  exact ⟨hmem, (h.unresolved _).mpr (List.mem_map_of_mem (List.mem_append_left _ hmem))⟩

/-- Each of them gets one result. -/
theorem Commits.Accounts.nodup_results (h : m.Accounts batches)
    (hperm : (final.map Prod.fst).Perm batches) : ((resultsOf final).map Prod.fst).Nodup := by
  rw [map_fst_resultsOf]
  refine (hperm.map Prepared.id).nodup_iff.mpr (List.pairwise_map.mpr ?_)
  exact (List.pairwise_append.mp h.order).1.imp fun hlt => hlt.ne

/-- **Without the group the queue counts those that wait.** -/
theorem Commits.Accounts.finish (h : m.Accounts batches)
    (hperm : (final.map Prod.fst).Perm batches) : (m.finished i final lsn).Accounts [] := by
  have hsub : m.queue.waiting ⊆ m.pending batches := List.subset_append_right _ _
  obtain ⟨-, horder, hcross⟩ := List.pairwise_append.mp h.order
  constructor
  · intro j b
    change (answerRequests _ m.requests j).batch = some b ↔
      b ∈ (m.queue.finish (final.map Prod.fst)).waiting ∧ b.id = j
    rw [Queue.waiting_finish, batch_answerRequests]
    exact h.batch_iff j b
  · rw [pending_finished]
    intro b hb
    change (answerRequests _ m.requests b.id).bytes = b.bytes
    rw [bytes_answerRequests]
    exact h.bytes_eq b (hsub hb)
  · rw [pending_finished]
    exact fun b hb => h.nonempty b (hsub hb)
  · rw [pending_finished]
    exact horder
  · intro j
    rw [pending_finished, answers_finished]
    change j < m.next ∧ _ ↔ _
    rw [List.mem_append, not_or, ← and_assoc, h.unresolved, (hperm.map Prepared.id).mem_iff,
      Commits.pending, List.map_append, List.mem_append]
    constructor
    · rintro ⟨hj | hj, hnot⟩
      · exact absurd hj hnot
      · exact hj
    · intro hj
      refine ⟨Or.inr hj, fun hclaimed => ?_⟩
      obtain ⟨b, hb, rfl⟩ := List.mem_map.mp hj
      obtain ⟨b', hb', heq⟩ := List.mem_map.mp hclaimed
      exact (hcross b' hb' b hb).ne heq
  · rw [pending_finished]
    change (m.queue.finish _).count = _
    rw [Queue.finish_eq]
    change m.queue.count - _ = _
    rw [h.count, hperm.length_eq, Commits.pending, List.length_append]
    omega
  · rw [pending_finished]
    change (m.queue.finish _).bytes = _
    rw [Queue.finish_eq]
    change m.queue.bytes - _ = _
    rw [h.bytes, (hperm.map Prepared.bytes).sum_eq, Commits.pending, List.map_append,
      List.sum_append]
    omega
  · change (m.queue.finish _).bytes ≤ _
    rw [Queue.finish_eq]
    exact (Nat.sub_le _ _).trans h.bytes_le

/-- What is given by now is what was given before, or a result of the group. -/
theorem Commits.Ledger.delivered_finished (h : m.Ledger batches)
    (hnodup : ((resultsOf final).map Prod.fst).Nodup)
    (hfresh : ∀ b r, (b, r) ∈ final → b.id ∉ m.answers.map Prod.fst) (j : ℕ) (r : Result ℕ) :
    (j, r) ∈ m.answers ++ resultsOf final ↔
      (answerRequests (resultsOf final) m.requests j).result = some r ∨
        m.callers j = .returned r := by
  rw [List.mem_append]
  by_cases hj : j ∈ (resultsOf final).map Prod.fst
  · obtain ⟨⟨j', r'⟩, hmem, rfl⟩ := List.mem_map.mp hj
    obtain ⟨b, hb, rfl⟩ := mem_resultsOf.mp hmem
    have hold : (b.id, r) ∉ m.answers := fun hold => hfresh b _ hb (List.mem_map_of_mem hold)
    have hreturned : m.callers b.id ≠ .returned r := fun heq =>
      hold ((h.delivered _ _).mpr (Or.inr heq))
    rw [answerRequests_of_mem hnodup hmem]
    simp only [hold, hreturned, false_or, or_false, Option.some.injEq]
    constructor
    · intro hmem'
      exact congrArg Prod.snd (List.inj_on_of_nodup_map hnodup hmem hmem' rfl)
    · rintro rfl
      exact hmem
  · rw [answerRequests_of_notMem hj, h.delivered]
    have hnot : (j, r) ∉ resultsOf final := fun hmem => hj (List.mem_map_of_mem hmem)
    simp [hnot]

/-- **Every member of the group gets its only result**, and the sequences go on in the order of
their numbers. -/
theorem Commits.Ledger.finish {limits : Limits} (h : m.Ledger batches) (hacc : m.Accounts batches)
    (hcaller : m.callers i = .claimed batches) (houtcome : Outcome limits m.lsn batches final lsn) :
    (m.finished i final lsn).Ledger [] := by
  obtain ⟨horder, -, hcross⟩ := List.pairwise_append.mp hacc.order
  obtain ⟨hperm, hlsn, hnew, hascending⟩ := houtcome.spec
    (fun b hb => hacc.nonempty b (List.mem_append_left _ hb)) horder
  have hnodup := hacc.nodup_results hperm
  have hinLoop : (m.callers i).InLoop := by simp [hcaller, Caller.InLoop]
  have hiff (j : ℕ) := Caller.update_iff .looping hinLoop trivial j
  constructor
  · exact fun j => (hiff j).1.trans (h.absent j)
  · rw [answers_finished]
    intro j hj
    rcases List.mem_append.mp hj with hj | hj
    · exact h.answered j hj
    · obtain ⟨b, hb, rfl⟩ := List.mem_map.mp hj
      obtain ⟨x, hx, rfl⟩ := List.mem_map.mp hb
      exact (hacc.unanswered hperm hx).2.1
  · rw [answers_finished]
    refine List.nodup_append.mpr ⟨h.nodup, map_fst_resultsOf final ▸ hnodup, ?_⟩
    rintro j hj k hk rfl
    obtain ⟨b, hb, rfl⟩ := List.mem_map.mp hk
    obtain ⟨x, hx, rfl⟩ := List.mem_map.mp hb
    exact (hacc.unanswered hperm hx).2.2 hj
  · intro j r
    change _ ↔ _ ∨ Function.update m.callers i .looping j = .returned r
    rw [(hiff j).2]
    exact h.delivered_finished hnodup (fun b r hb => (hacc.unanswered hperm hb).2.2) j r
  · intro j r hj
    have hreturned := ((hiff j).2 r).mp hj
    change (answerRequests (resultsOf final) m.requests j).result = none
    -- who has returned is no member of the group
    rw [answerRequests_of_notMem fun hmem => ?_]
    · exact h.taken j r hreturned
    · obtain ⟨⟨j', r'⟩, hresult, rfl⟩ := List.mem_map.mp hmem
      obtain ⟨b, hb, rfl⟩ := mem_resultsOf.mp hresult
      exact (hacc.unanswered hperm hb).2.2
        (List.mem_map_of_mem ((h.delivered _ _).mpr (Or.inr hreturned)))
  · rw [pending_finished]
    intro j n hj
    rcases List.mem_append.mp hj with hj | hj
    · obtain ⟨hn, hbehind⟩ := h.numbered j n hj
      exact ⟨hn.trans hlsn, fun b hb => hbehind b (List.mem_append_right _ hb)⟩
    · obtain ⟨b, hb, rfl⟩ := mem_resultsOf.mp hj
      exact ⟨(hnew b n hb).2, hcross b (hacc.unanswered hperm hb).1⟩
  · intro j n k n' hj hk hlt
    rcases List.mem_append.mp hj with hj | hj <;> rcases List.mem_append.mp hk with hk | hk
    · exact h.ascending j n k n' hj hk hlt
    · obtain ⟨b', hb', rfl⟩ := mem_resultsOf.mp hk
      exact (h.numbered j n hj).1.trans_lt (hnew b' n' hb').1
    · obtain ⟨b, hb, rfl⟩ := mem_resultsOf.mp hj
      have hbefore := (h.numbered k n' hk).2 b
        (List.mem_append_left _ (hacc.unanswered hperm hb).1)
      exact absurd hlt hbefore.not_gt
    · obtain ⟨b, hb, rfl⟩ := mem_resultsOf.mp hj
      obtain ⟨b', hb', rfl⟩ := mem_resultsOf.mp hk
      exact hascending b n b' n' hb hb' hlt

/-- Nothing is claimed or withdrawn. -/
theorem Commits.History.finish {limits : Limits} (h : m.History limits) :
    (m.finished i final lsn).History limits where
  order := by
    change (m.groups.flatten ++ (m.queue.finish _).waiting).Pairwise _
    rw [Queue.waiting_finish]
    exact h.order
  submitted := h.submitted
  resolved j hj := by
    rw [Commits.answers_finished]
    exact List.mem_append_left _ (h.resolved j hj)
  nodup := h.nodup
  disjoint := h.disjoint
  bounds := h.bounds

/-- **A group gets its results**, and with them the queue lets go of it. -/
theorem Commits.Inv.finish {limits : Limits} (h : m.Inv limits batches)
    (hcaller : m.callers i = .claimed batches) (houtcome : Outcome limits m.lsn batches final lsn) :
    (m.finished i final lsn).Inv limits [] := by
  obtain ⟨hlead, hacc, hled, hhist⟩ := h
  have hperm := (houtcome.spec (fun b hb => hacc.nonempty b (List.mem_append_left _ hb))
    (List.pairwise_append.mp hacc.order).1).1
  exact ⟨hlead.release (by simp [hcaller, Caller.Leads]), hacc.finish hperm,
    hled.finish hacc hcaller houtcome, hhist.finish⟩

end Finish

/-! ### Runs -/

/-- Every step keeps the invariant. -/
theorem Commits.Inv.step {limits : Limits} (hbounds : limits.group.Valid) {m m' : Commits S}
    {claimed : List (Prepared S)} (h : m.Inv limits claimed) (hstep : Commits.Step limits m m') :
    ∃ claimed', m'.Inv limits claimed' := by
  cases hstep with
  | submit batch queue hid hne hsubmit => exact ⟨_, h.submit hid hne hsubmit⟩
  | take i result hcaller hresult => exact ⟨_, h.take hcaller hresult⟩
  | cancel i batch hcaller _ hbatch => exact ⟨_, h.cancel hcaller hbatch⟩
  | lead i hcaller _ hrunning => exact ⟨_, h.lead hcaller hrunning⟩
  | giveUp i hcaller => exact ⟨_, h.giveUp hcaller⟩
  | claim i hcaller => exact ⟨_, h.claim hbounds hcaller⟩
  | finish i batches final lsn hcaller houtcome =>
    obtain rfl := h.leadership.eq_claimed i batches hcaller
    exact ⟨_, h.finish hcaller houtcome⟩

/-- An empty queue has the invariant. -/
theorem Commits.Inv.initial (limits : Limits) (lsn : ℕ) :
    (Commits.initial S lsn).Inv limits [] := by
  refine ⟨⟨?_, ?_, ?_, ?_⟩, ⟨?_, ?_, ?_, ?_, ?_, rfl, rfl, ?_⟩, ⟨?_, ?_, ?_, ?_, ?_, ?_, ?_⟩,
    ⟨?_, ?_, ?_, ?_, ?_, ?_⟩⟩ <;>
  simp [Commits.initial, Commits.pending, Caller.Leads]

/-- **The invariant holds in every state the queue reaches.** -/
theorem Commits.Reachable.inv {limits : Limits} (hbounds : limits.group.Valid) {m : Commits S}
    (hm : Commits.Reachable limits m) : ∃ claimed, m.Inv limits claimed := by
  induction hm with
  | initial lsn => exact ⟨[], Commits.Inv.initial limits lsn⟩
  | step _ hstep ih =>
    obtain ⟨claimed, h⟩ := ih
    exact h.step hbounds hstep

/-! ### The theorem -/

/-- The requests that have been submitted and have no result. -/
def Commits.unresolved (m : Commits S) : Finset ℕ :=
  (Finset.range m.next).filter fun i => i ∉ m.answers.map Prod.fst

/-- **Every request is resolved once.** -/
structure Commits.ResolvesOnce (limits : Limits) (m : Commits S) : Prop where
  /-- The totals of the queue are those of the unresolved requests. -/
  count : m.queue.count = m.unresolved.card
  bytes : m.queue.bytes = ∑ i ∈ m.unresolved, (m.requests i).bytes
  /-- A request that may be withdrawn is in the totals. -/
  cancel_le : ∀ i batch, (m.requests i).batch = some batch →
    1 ≤ m.queue.count ∧ batch.bytes ≤ m.queue.bytes
  /-- So is a group that gets its results. -/
  finish_le : ∀ i batches final lsn, m.callers i = .claimed batches →
    Outcome limits m.lsn batches final lsn →
      final.length ≤ m.queue.count ∧
        ((final.map Prod.fst).map Prepared.bytes).sum ≤ m.queue.bytes
  /-- No request is withdrawn or claimed twice, or both. -/
  exclusive : (m.cancels ++ m.groups.flatten.map Prepared.id).Nodup
  /-- No request gets two results. -/
  once : (m.answers.map Prod.fst).Nodup
  /-- A result that is given waits for its caller, or is what the caller has returned. -/
  delivered : ∀ i r, (i, r) ∈ m.answers ↔
    (m.requests i).result = some r ∨ m.callers i = .returned r
  /-- A request without a result waits, or the leader has claimed it, and its caller is
  still there. -/
  pending : ∀ i ∈ m.unresolved, (m.callers i).InLoop ∧
    ((∃ batch, (m.requests i).batch = some batch) ∨
      ∃ j batches, m.callers j = .claimed batches ∧ i ∈ batches.map Prepared.id)
  leader : ∀ i j, (m.callers i).Leads → (m.callers j).Leads → i = j
  /-- Requests are claimed in the order of their submission. -/
  claims : (m.groups.flatten.map Prepared.id).Pairwise (· < ·)
  /-- Successful commits have their sequences in that order. -/
  sequences : ∀ i n j n', (i, .ok n) ∈ m.answers → (j, .ok n') ∈ m.answers → i < j → n < n'
  bounds : ∀ group ∈ m.groups, group.length ≤ limits.group.maxTransactions ∧
    ((group.map Prepared.bytes).sum ≤ limits.group.maxBytes ∨ group.length ≤ 1)

/-- The unresolved requests are the pending ones. -/
theorem Commits.Accounts.unresolved_eq {m : Commits S} {claimed : List (Prepared S)}
    (h : m.Accounts claimed) : m.unresolved = ((m.pending claimed).map Prepared.id).toFinset := by
  ext i
  rw [List.mem_toFinset, ← h.unresolved, Commits.unresolved, Finset.mem_filter, Finset.mem_range]

/-- Pending transactions have identities of their own. -/
theorem Commits.Accounts.nodup {m : Commits S} {claimed : List (Prepared S)}
    (h : m.Accounts claimed) : ((m.pending claimed).map Prepared.id).Nodup :=
  List.pairwise_map.mpr (h.order.imp fun hlt => hlt.ne)

/-- The invariant gives what is promised. -/
theorem Commits.Inv.resolvesOnce {limits : Limits} {m : Commits S} {claimed : List (Prepared S)}
    (h : m.Inv limits claimed) : m.ResolvesOnce limits := by
  obtain ⟨hlead, hacc, hled, hhist⟩ := h
  constructor
  · rw [hacc.unresolved_eq, List.toFinset_card_of_nodup hacc.nodup, List.length_map, hacc.count]
  · rw [hacc.unresolved_eq, List.sum_toFinset _ hacc.nodup, hacc.bytes, List.map_map]
    congr 1
    exact List.map_congr_left fun b hb => (hacc.bytes_eq b hb).symm
  · intro i batch hbatch
    have hmem : batch ∈ m.pending claimed :=
      List.mem_append_right _ ((hacc.batch_iff i batch).mp hbatch).1
    rw [hacc.count, hacc.bytes]
    exact ⟨List.length_pos_of_mem hmem, List.le_sum_of_mem (List.mem_map_of_mem hmem)⟩
  · intro i batches final lsn hcaller houtcome
    obtain rfl := hlead.eq_claimed i batches hcaller
    obtain ⟨hperm, -⟩ := houtcome.spec (fun b hb => hacc.nonempty b (List.mem_append_left _ hb))
      (hacc.order.sublist (List.sublist_append_left _ _))
    have hlength := hperm.length_eq
    have hsum := (hperm.map Prepared.bytes).sum_eq
    rw [List.length_map] at hlength
    rw [hacc.count, hacc.bytes, hlength, hsum, Commits.pending, List.length_append,
      List.map_append, List.sum_append]
    exact ⟨Nat.le_add_right _ _, Nat.le_add_right _ _⟩
  · refine List.nodup_append.mpr ⟨hhist.nodup, ?_, ?_⟩
    · refine List.pairwise_map.mpr ?_
      exact (hhist.order.sublist (List.sublist_append_left _ _)).imp fun hlt => hlt.ne
    · rintro i hi j hj rfl
      obtain ⟨b, hb, rfl⟩ := List.mem_map.mp hj
      exact hhist.disjoint b hb hi
  · exact hled.nodup
  · exact hled.delivered
  · intro i hi
    have hunresolved := Finset.mem_filter.mp hi
    have hmem : i ∈ (m.pending claimed).map Prepared.id :=
      (hacc.unresolved i).mp ⟨Finset.mem_range.mp hunresolved.1, hunresolved.2⟩
    constructor
    · cases hcaller : m.callers i with
      | absent =>
        exact absurd ((hled.absent i).mp hcaller) (Finset.mem_range.mp hunresolved.1).not_ge
      | returned r =>
        have hmem' := (hled.delivered i r).mpr (Or.inr hcaller)
        exact absurd (List.mem_map_of_mem hmem') hunresolved.2
      | _ => trivial
    · rw [Commits.pending, List.map_append] at hmem
      rcases List.mem_append.mp hmem with hmem | hmem
      · obtain ⟨b, hb, -⟩ := List.mem_map.mp hmem
        obtain ⟨j, hj⟩ := hlead.holds (List.ne_nil_of_mem hb)
        exact Or.inr ⟨j, claimed, hj, hmem⟩
      · obtain ⟨b, hb, rfl⟩ := List.mem_map.mp hmem
        exact Or.inl ⟨b, (hacc.batch_iff _ b).mpr ⟨hb, rfl⟩⟩
  · exact hlead.unique
  · exact List.pairwise_map.mpr (hhist.order.sublist (List.sublist_append_left _ _))
  · exact hled.ascending
  · exact hhist.bounds

/-- **Every request of the commit queue is resolved once**, in every state that callers
reach by submitting, withdrawing, leading and finishing in any order. -/
theorem Commits.resolves_once {limits : Limits} (hbounds : limits.group.Valid) {m : Commits S}
    (hm : Commits.Reachable limits m) : m.ResolvesOnce limits := by
  obtain ⟨claimed, h⟩ := hm.inv hbounds
  exact h.resolvesOnce

/-! ### Three requests -/

section Run

/-- Limits with room for three requests, two of them in a group. -/
def threeLimits : Limits where
  wal := ⟨maxU64⟩
  queue := ⟨3, 24⟩
  group := ⟨2, 16⟩

/-- A transaction of the empty database that writes one entity. -/
def queuedBatch (id : ℕ) : Prepared sequenceSemantics where
  id
  base := ⟨0, (0 : ℕ)⟩
  keys := [(1, 1)]
  changesCatalog := false
  isEmpty := false
  payload := [7]
  bytes := 8

/-- The first two are claimed together, and one of them is written. -/
theorem outcome_queuedBatch :
    Outcome threeLimits 0 [queuedBatch 0, queuedBatch 1]
      [(queuedBatch 1, .error (.conflict (some 1) (some 1))), (queuedBatch 0, .ok 1)] 1 := by
  have hvalid := validateGroup_pair (b := queuedBatch 0) (c := queuedBatch 1) (k := (1, 1)) rfl rfl
    rfl (show 0 < maxU64 by decide)
  have hgroup := commitGroup_single 0 (b := queuedBatch 0) rfl (show 0 + 1 ≤ maxU64 by decide)
    (show [(7 : UInt8)].length ≤ maxFrame by decide)
  exact .written .new false (fun _ => false) 0 ⟨none, [⟨fun _ => false, fun _ => false⟩]⟩ _
    [queuedBatch 0] _ [] hvalid (by simp) hgroup

/-- Three requests for one entity are submitted. The first caller leads and claims two of
them, the third request is withdrawn, the group commits one and refuses the other, and all
three callers return. -/
theorem Commits.resolves_once_run :
    ∃ m : Commits sequenceSemantics, m.ResolvesOnce threeLimits ∧
      m.callers 0 = .returned (.ok 1) ∧
      m.callers 1 = .returned (.error (.conflict (some 1) (some 1))) ∧
      m.callers 2 = .returned (.error .deadlineExceeded) ∧
      m.groups = [[queuedBatch 0, queuedBatch 1]] ∧ m.cancels = [2] ∧ m.queue.count = 0 := by
  have h₀ : Commits.Reachable threeLimits (Commits.initial sequenceSemantics 0) := .initial 0
  have h₁ := h₀.step (.submit _ (queuedBatch 0) ⟨[queuedBatch 0], 1, 8⟩ rfl rfl rfl)
  have h₂ := h₁.step (.submit _ (queuedBatch 1) ⟨[queuedBatch 0, queuedBatch 1], 2, 16⟩ rfl rfl rfl)
  have h₃ := h₂.step (.submit _ (queuedBatch 2)
    ⟨[queuedBatch 0, queuedBatch 1, queuedBatch 2], 3, 24⟩ rfl rfl rfl)
  have h₄ := h₃.step (.lead _ 0 (by simp [Commits.initial]) (by simp [Commits.initial]) rfl)
  have h₅ := h₄.step (.claim _ 0 (by simp))
  have hclaim : Queue.claim threeLimits.group
      ⟨[queuedBatch 0, queuedBatch 1, queuedBatch 2], 3, 24⟩ = [queuedBatch 0, queuedBatch 1] := rfl
  rw [hclaim] at h₅
  -- The third request has not been claimed, so its caller withdraws it.
  have h₆ := h₅.step (.cancel _ 2 (queuedBatch 2) (by simp [Commits.initial])
    (by simp [Commits.initial, claimRequests, queuedBatch])
    (by simp [Commits.initial, claimRequests, queuedBatch]))
  have h₇ := h₆.step (.finish _ 0 [queuedBatch 0, queuedBatch 1] _ _ (by simp) outcome_queuedBatch)
  have h₈ := h₇.step (.take _ 0 (.ok 1) (by simp) (by simp [answerRequests, queuedBatch]))
  have h₉ := h₈.step (.take _ 1 (.error (.conflict (some 1) (some 1))) (by simp [Commits.initial])
    (by simp [answerRequests, queuedBatch]))
  have h₁₀ := h₉.step (.take _ 2 (.error .deadlineExceeded) (by simp [Commits.initial])
    (by simp [answerRequests, queuedBatch]))
  refine ⟨_, Commits.resolves_once ⟨Nat.two_pos, by decide⟩ h₁₀, ?_, ?_, ?_, rfl, rfl, rfl⟩
  · simp
  · simp
  · simp

end Run

end EveDB
