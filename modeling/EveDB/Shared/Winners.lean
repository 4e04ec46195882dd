import EveDB.Shared.Conflicts

/-!
# Conflicts and their winners

A member of a group that is refused with a conflict loses against a revision that the
coordinator remembers, or against a placeholder. A revision stands for a commit
(`Shared.Backed`). A placeholder stands for a member that has passed validation, and such a
member may still be dropped: its deadline passes before the frames are encoded, the
preparation of the group fails, the log is full, or the write fails. The member it has
barred is told of a conflict all the same, and nobody has won.

So a group is safe from this, whatever happens behind its validation, exactly when no two
of its members that pass on their own overlap
(`Shared.conflict_has_winner_iff`).
-/

namespace EveDB

variable {E : Engine} {S : Semantics E}

/-! ### Revisions are commits -/

/-- **Every revision stands for a commit.** -/
structure Shared.Backed (s : Shared S) : Prop where
  key : ∀ (key : EntityKey) r, s.coordinator.revisions[key]? = some r →
    ∃ c ∈ s.committed, c.2 = r ∧ key ∈ c.1.keys
  catalog : s.coordinator.catalogRevision = 0 ∨
    ∃ c ∈ s.committed, c.2 = s.coordinator.catalogRevision ∧ c.1.changesCatalog = true

namespace Coordinator

theorem record_cons_ok (c : Coordinator) (b : Prepared S) (n : ℕ)
    (answers : List (Prepared S × Result ℕ)) :
    c.record ((b, .ok n) :: answers) = Coordinator.record
      { revisions := b.keys.foldl (fun keys key => keys.insert key n) c.revisions
        catalogRevision := if b.changesCatalog then n else c.catalogRevision } answers := rfl

theorem record_cons_error (c : Coordinator) (b : Prepared S) (e : Error)
    (answers : List (Prepared S × Result ℕ)) :
    c.record ((b, .error e) :: answers) = c.record answers := rfl

/-- What the record leaves was there, or is the sequence of a member. -/
theorem record_sound (c : Coordinator) (answers : List (Prepared S × Result ℕ)) :
    (∀ (key : EntityKey) r, (c.record answers).revisions[key]? = some r →
      c.revisions[key]? = some r ∨ ∃ b, (b, .ok r) ∈ answers ∧ key ∈ b.keys) ∧
    ((c.record answers).catalogRevision = c.catalogRevision ∨
      ∃ b, (b, .ok (c.record answers).catalogRevision) ∈ answers ∧ b.changesCatalog = true) := by
  induction answers generalizing c with
  | nil => exact ⟨fun key r h => Or.inl h, Or.inl rfl⟩
  | cons x answers ih =>
    obtain ⟨b, answer⟩ := x
    cases answer with
    | error e =>
      rw [record_cons_error]
      obtain ⟨hkeys, hcat⟩ := ih c
      refine ⟨fun key r h => (hkeys key r h).imp id ?_, hcat.imp id ?_⟩
      · rintro ⟨b', hb', hkey⟩
        exact ⟨b', List.mem_cons_of_mem _ hb', hkey⟩
      · rintro ⟨b', hb', hchange⟩
        exact ⟨b', List.mem_cons_of_mem _ hb', hchange⟩
    | ok m =>
      rw [record_cons_ok]
      obtain ⟨hkeys, hcat⟩ := ih
        { revisions := b.keys.foldl (fun keys key => keys.insert key m) c.revisions
          catalogRevision := if b.changesCatalog then m else c.catalogRevision }
      constructor
      · intro key r h
        rcases hkeys key r h with hold | ⟨b', hb', hkey⟩
        · rw [getElem?_placeholders] at hold
          split_ifs at hold with hmem
          · cases hold
            exact Or.inr ⟨b, List.mem_cons_self, hmem⟩
          · exact Or.inl hold
        · exact Or.inr ⟨b', List.mem_cons_of_mem _ hb', hkey⟩
      · rcases hcat with hold | ⟨b', hb', hchange⟩
        · rw [hold]
          split
          · next hchange => exact Or.inr ⟨b, List.mem_cons_self, hchange⟩
          · exact Or.inl rfl
        · exact Or.inr ⟨b', List.mem_cons_of_mem _ hb', hchange⟩

end Coordinator

namespace Shared.Backed

variable {s s' : Shared S}

/-- More commits back the same revisions. -/
theorem mono (h : s.Backed) (hcoordinator : s'.coordinator = s.coordinator)
    (hcommitted : s.committed ⊆ s'.committed) : s'.Backed where
  key k r hr := by
    rw [hcoordinator] at hr
    obtain ⟨c, hc, hback⟩ := h.key k r hr
    exact ⟨c, hcommitted hc, hback⟩
  catalog := by
    rw [hcoordinator]
    refine h.catalog.imp id ?_
    rintro ⟨c, hc, hback⟩
    exact ⟨c, hcommitted hc, hback⟩

/-- Pruning only forgets. -/
theorem prune (h : s.Backed) (oldest : ℕ)
    (hcoordinator : s'.coordinator = s.coordinator.pruneRevisions oldest)
    (hcommitted : s'.committed = s.committed) : s'.Backed where
  key k r hr := by
    rw [hcoordinator, Coordinator.pruneRevisions, Std.ExtTreeMap.getElem?_filter] at hr
    obtain ⟨hold, -⟩ := Option.pfilter_eq_some_iff.mp hr
    rw [hcommitted]
    exact h.key k r hold
  catalog := by
    rw [hcoordinator, hcommitted]
    exact h.catalog

/-- The record installs the sequences of commits. -/
theorem record (h : s.Backed) {answers : List (Prepared S × Result ℕ)}
    (hanswers : ∀ b n, (b, .ok n) ∈ answers → (b, n) ∈ s.committed)
    (hcoordinator : s'.coordinator = s.coordinator.record answers)
    (hcommitted : s'.committed = s.committed) : s'.Backed := by
  obtain ⟨hkeys, hcat⟩ := s.coordinator.record_sound answers
  constructor
  · intro k r hr
    rw [hcoordinator] at hr
    rw [hcommitted]
    rcases hkeys k r hr with hold | ⟨b, hb, hkey⟩
    · exact h.key k r hold
    · exact ⟨(b, r), hanswers b r hb, rfl, hkey⟩
  · rw [hcoordinator, hcommitted]
    rcases hcat with hold | ⟨b, hb, hchange⟩
    · rw [hold]
      exact h.catalog
    · exact Or.inr ⟨_, hanswers b _ hb, rfl, hchange⟩

/-- Nothing remembered needs nothing. -/
theorem of_new (hcoordinator : s.coordinator = .new) : s.Backed where
  key k r hr := by simp [hcoordinator, Coordinator.new] at hr
  catalog := Or.inl (by rw [hcoordinator]; rfl)

end Shared.Backed

/-- **Every revision stands for a commit**, in every state of every run. -/
theorem Shared.Reachable.backed {limits : Limits} {s : Shared S}
    (hs : Shared.Reachable S limits s) : s.Backed := by
  induction hs with
  | initial => exact .of_new rfl
  | @step s s' hs hstep ih =>
    cases hstep with
    | write => exact ih.mono rfl (List.subset_append_left _ _)
    | intoShared | crash => exact .of_new rfl
    | prune oldest => exact ih.prune oldest rfl rfl
    | finish h answers completed before hh hlock =>
      have hrecorded : ({ s with coordinator :=
          if s.sharedMode then s.coordinator.record answers else s.coordinator } :
          Shared S).Backed := by
        cases hmode : s.sharedMode with
        | false => exact ih.mono rfl (List.Subset.refl _)
        | true =>
          refine ih.record (fun b n hb => ?_) rfl rfl
          exact ((hs.serial hmode hh).pending (b, .ok n) (by rwa [hlock]) n rfl).1
      by_cases hmoved : h.root.generation ≠ before
      · exact hrecorded.prune (s.oldestSequence.getD h.lsn) (if_pos hmoved) rfl
      · exact hrecorded.mono (if_neg hmoved) (List.Subset.refl _)
    | _ => exact ih.mono rfl (List.Subset.refl _)

/-- No commit has a sequence above the largest one. -/
theorem Shared.Reachable.committed_le {limits : Limits} {s : Shared S}
    (hs : Shared.Reachable S limits s) : ∀ c ∈ s.committed, c.2 ≤ maxU64 := by
  induction hs with
  | initial => exact fun c hc => nomatch hc
  | @step s s' hs hstep ih =>
    cases hstep with
    | write h accepted active completed answers before readings system hh _ _ _ _ hsystem =>
      intro c hc
      rcases List.mem_append.mp hc with hc | hc
      · exact ih c hc
      · obtain ⟨h₁, _, hh₁, -, -, -, -, -, hmax, -⟩ := hsystem.commit_ok
        obtain rfl : h₁ = h := Option.some.inj (hh₁.symm.trans hh)
        obtain ⟨-, hlt, -⟩ := List.mem_zipIdx hc
        rw [List.length_map] at hmax
        omega
    | intoShared | crash => exact fun c hc => nomatch hc
    | _ => exact ih

/-! ### Validation against placeholders -/

namespace Coordinator

variable {c : Coordinator} {poisoned : Bool} {groupKeys : SortedMap EntityKey ℕ}
  {catalogRevision : ℕ} {b : Prepared S}

/-- A member passes validation by what has been committed alone. -/
def Passes (c : Coordinator) (poisoned : Bool) (expired : ℕ → Bool) (b : Prepared S) : Prop :=
  c.validate poisoned (expired b.id) ∅ c.catalogRevision b = .ok ()

/-- The coordinator remembers sequences. -/
structure Bounded (c : Coordinator) : Prop where
  key : ∀ (key : EntityKey) r, c.revisions[key]? = some r → r ≤ maxU64
  catalog : c.catalogRevision ≤ maxU64

/-- What a group is validated against behind the members `kept`. -/
structure Placeholders (c : Coordinator) (kept : List (Prepared S))
    (groupKeys : SortedMap EntityKey ℕ) (catalogRevision : ℕ) : Prop where
  key : ∀ (key : EntityKey) lsn, groupKeys[key]? = some lsn ↔
    lsn = maxU64 ∧ ∃ x ∈ kept, key ∈ x.keys
  catalog : (catalogRevision = maxU64 ∧ ∃ x ∈ kept, x.changesCatalog = true) ∨
    catalogRevision = c.catalogRevision

namespace Placeholders

variable {kept : List (Prepared S)}

/-- A group starts without placeholders. -/
theorem nil (c : Coordinator) : c.Placeholders ([] : List (Prepared S)) ∅ c.catalogRevision where
  key k lsn := by simp
  catalog := Or.inr rfl

/-- An accepted member leaves its placeholders. -/
theorem cons (h : c.Placeholders kept groupKeys catalogRevision) (b : Prepared S) :
    c.Placeholders (b :: kept)
      (b.keys.foldl (fun keys key => keys.insert key maxU64) groupKeys)
      (if b.changesCatalog then maxU64 else catalogRevision) where
  key k lsn := by
    rw [getElem?_placeholders]
    split_ifs with hk
    · simp [hk, eq_comm]
    · simp [hk, h.key]
  catalog := by
    split_ifs with hchange
    · exact Or.inl ⟨rfl, b, List.mem_cons_self, hchange⟩
    · refine h.catalog.imp ?_ id
      rintro ⟨hcat, x, hx, hx'⟩
      exact ⟨hcat, x, List.mem_cons_of_mem _ hx, hx'⟩

/-- A member that passes behind placeholders passes without them. -/
theorem passes (h : c.Placeholders kept groupKeys catalogRevision) (hc : c.Bounded)
    {expired : ℕ → Bool}
    (hv : c.validate poisoned (expired b.id) groupKeys catalogRevision b = .ok ()) :
    c.Passes poisoned expired b := by
  obtain ⟨hpoisoned, hexpired, hcat, hkeys⟩ := validate_eq_ok.mp hv
  refine validate_eq_ok.mpr ⟨hpoisoned, hexpired, ?_, fun key hkey lsn hlsn => ?_⟩
  · rcases h.catalog with ⟨heq, -⟩ | heq
    · exact hc.catalog.trans (heq ▸ hcat)
    · exact heq ▸ hcat
  · have hrev : c.revisions[key]? = some lsn := by simpa [revision] using hlsn
    cases hgroup : groupKeys[key]? with
    | none => exact hkeys key hkey lsn (by simp [revision, hgroup, hrev])
    | some lsn' =>
      have hle := hkeys key hkey lsn' (by simp [revision, hgroup])
      rw [((h.key key lsn').mp hgroup).1] at hle
      exact (hc.key key lsn hrev).trans hle

/-- **What a conflict means**: a commit behind the base, or a member that was kept and
overlaps. -/
theorem conflict (h : c.Placeholders kept groupKeys catalogRevision) {expired : ℕ → Bool}
    {table entity : Option ℕ}
    (hv : c.validate poisoned (expired b.id) groupKeys catalogRevision b =
      .error (.conflict table entity)) :
    (b.base.lsn < c.catalogRevision ∧ table = none) ∨
      (∃ key ∈ b.keys, ∃ r, c.revisions[key]? = some r ∧ b.base.lsn < r) ∨
      (c.Passes poisoned expired b ∧ b.base.lsn < maxU64 ∧ ∃ x ∈ kept,
        (∃ key ∈ x.keys, key ∈ b.keys) ∨ (table = none ∧ x.changesCatalog = true)) := by
  by_cases hreal : ∃ key ∈ b.keys, ∃ r, c.revisions[key]? = some r ∧ b.base.lsn < r
  · exact Or.inr (Or.inl hreal)
  have hclear : ∀ key ∈ b.keys, ∀ r, c.revisions[key]? = some r → r ≤ b.base.lsn :=
    fun key hkey r hr => Nat.le_of_not_lt fun hlt => hreal ⟨key, hkey, r, hr, hlt⟩
  unfold validate at hv
  split_ifs at hv with hpoisoned hexpired hcat
  · cases hv
  · cases hv
  · -- refused for the catalog
    cases hv
    by_cases hbehind : b.base.lsn < c.catalogRevision
    · exact Or.inl ⟨hbehind, rfl⟩
    obtain ⟨heq, x, hx, hchange⟩ := h.catalog.resolve_right fun heq =>
      hbehind (by omega)
    refine Or.inr (Or.inr ⟨validate_eq_ok.mpr ⟨?_, ?_, ?_, ?_⟩, by omega, x, hx,
      Or.inr ⟨rfl, hchange⟩⟩)
    · simpa using hpoisoned
    · simpa using hexpired
    · exact Nat.le_of_not_lt hbehind
    · intro key hkey lsn hlsn
      exact hclear key hkey lsn (by simpa [revision] using hlsn)
  · -- refused for a key
    cases hconflict : c.conflicting groupKeys b.base.lsn b.keys with
    | none => simp [hconflict] at hv
    | some key =>
      have hkey : key ∈ b.keys := List.mem_of_find?_eq_some hconflict
      have hlater := List.find?_some hconflict
      cases hgroup : groupKeys[key]? with
      | none =>
        obtain ⟨r, hr, hlt⟩ : ∃ r, c.revisions[key]? = some r ∧ b.base.lsn < r := by
          simpa [revision, hgroup, Option.any_eq_true] using hlater
        exact absurd hlt (hclear key hkey r hr).not_gt
      | some lsn =>
        obtain ⟨rfl, x, hx, hmem⟩ := (h.key key lsn).mp hgroup
        have hlt : b.base.lsn < maxU64 := by simpa [revision, hgroup] using hlater
        have hcat' : c.catalogRevision ≤ b.base.lsn := by
          rcases h.catalog with ⟨heq, -⟩ | heq <;> omega
        refine Or.inr (Or.inr ⟨validate_eq_ok.mpr ⟨?_, ?_, hcat', ?_⟩, hlt, x, hx,
          Or.inl ⟨key, hmem, hkey⟩⟩)
        · simpa using hpoisoned
        · simpa using hexpired
        · intro key hkey lsn hlsn
          exact hclear key hkey lsn (by simpa [revision] using hlsn)

end Placeholders

/-- A refused member loses against a commit, or against an accepted member that passes on
its own in front of it. -/
theorem validateGroup_conflict (hc : c.Bounded) {expired : ℕ → Bool}
    {batches kept accepted : List (Prepared S)} {completed : List (Prepared S × Result ℕ)}
    (hkept : c.Placeholders kept groupKeys catalogRevision)
    (h : c.validateGroup poisoned expired groupKeys catalogRevision batches =
      (accepted, completed)) {table entity : Option ℕ}
    (hb : (b, .error (.conflict table entity)) ∈ completed) :
    (b.base.lsn < c.catalogRevision ∧ table = none) ∨
      (∃ key ∈ b.keys, ∃ r, c.revisions[key]? = some r ∧ b.base.lsn < r) ∨
      (c.Passes poisoned expired b ∧ b.base.lsn < maxU64 ∧ ∃ x,
        (x ∈ kept ∨ (x ∈ accepted ∧ c.Passes poisoned expired x ∧
          ∃ l₁ l₂, batches = l₁ ++ b :: l₂ ∧ x ∈ l₁)) ∧
        ((∃ key ∈ x.keys, key ∈ b.keys) ∨ (table = none ∧ x.changesCatalog = true))) := by
  induction batches generalizing groupKeys catalogRevision kept accepted completed with
  | nil =>
    cases h
    cases hb
  | cons d batches ih =>
    rw [validateGroup] at h
    cases hv : c.validate poisoned (expired d.id) groupKeys catalogRevision d with
    | error e =>
      rw [hv] at h
      cases h
      rcases List.mem_cons.mp hb with heq | hb
      · cases heq
        refine (hkept.conflict hv).imp id (Or.imp id ?_)
        rintro ⟨hpass, hlt, x, hx, hover⟩
        exact ⟨hpass, hlt, x, Or.inl hx, hover⟩
      · refine (ih hkept rfl hb).imp id (Or.imp id ?_)
        rintro ⟨hpass, hlt, x, hx, hover⟩
        refine ⟨hpass, hlt, x, hx.imp id ?_, hover⟩
        rintro ⟨haccepted, hxpass, l₁, l₂, rfl, hmem⟩
        exact ⟨haccepted, hxpass, d :: l₁, l₂, rfl, List.mem_cons_of_mem _ hmem⟩
    | ok u =>
      rw [hv] at h
      cases h
      obtain ⟨l₁, l₂, hsplit⟩ : ∃ l₁ l₂, batches = l₁ ++ b :: l₂ :=
        List.append_of_mem (mem_of_mem_refused hb)
      refine (ih (hkept.cons d) rfl hb).imp id (Or.imp id ?_)
      rintro ⟨hpass, hlt, x, hx | ⟨haccepted, hxpass, l₁, l₂, rfl, hmem⟩, hover⟩
      · rcases List.mem_cons.mp hx with rfl | hx
        · refine ⟨hpass, hlt, x, Or.inr ⟨List.mem_cons_self, hkept.passes hc hv, x :: l₁, l₂, ?_,
            List.mem_cons_self⟩, hover⟩
          rw [hsplit, List.cons_append]
        · exact ⟨hpass, hlt, x, Or.inl hx, hover⟩
      · exact ⟨hpass, hlt, x, Or.inr ⟨List.mem_cons_of_mem _ haccepted, hxpass, d :: l₁, l₂, rfl,
          List.mem_cons_of_mem _ hmem⟩, hover⟩

/-- A member that passes on its own is refused with a conflict only. -/
theorem conflict_of_passes {expired : ℕ → Bool} {batches accepted : List (Prepared S)}
    {completed : List (Prepared S × Result ℕ)}
    (h : c.validateGroup poisoned expired groupKeys catalogRevision batches =
      (accepted, completed)) {answer : Result ℕ} (hb : (b, answer) ∈ completed)
    (hpass : c.Passes poisoned expired b) :
    ∃ table entity, answer = .error (.conflict table entity) := by
  induction batches generalizing groupKeys catalogRevision accepted completed with
  | nil =>
    cases h
    cases hb
  | cons d batches ih =>
    rw [validateGroup] at h
    cases hv : c.validate poisoned (expired d.id) groupKeys catalogRevision d with
    | error e =>
      rw [hv] at h
      cases h
      rcases List.mem_cons.mp hb with heq | hb
      · cases heq
        obtain ⟨hpoisoned, hexpired, -⟩ := validate_eq_ok.mp hpass
        unfold validate at hv
        rw [hpoisoned, hexpired, if_neg Bool.false_ne_true, if_neg Bool.false_ne_true] at hv
        split_ifs at hv with hcat
        · cases hv
          exact ⟨none, none, rfl⟩
        · split at hv
          · cases hv
            exact ⟨_, _, rfl⟩
          · cases hv
      · exact ih rfl hb
    | ok u =>
      rw [hv] at h
      cases h
      exact ih rfl hb

/-- When no member that passes on its own is refused, those are apart. -/
theorem pairwise_of_accepted {expired : ℕ → Bool} {batches accepted : List (Prepared S)}
    {completed : List (Prepared S × Result ℕ)}
    (h : c.validateGroup poisoned expired groupKeys catalogRevision batches =
      (accepted, completed))
    (hrefused : ∀ x ∈ completed, ¬ c.Passes poisoned expired x.1)
    (hapart : accepted.Pairwise Apart) :
    batches.Pairwise fun x y =>
      c.Passes poisoned expired x → c.Passes poisoned expired y → Apart x y := by
  induction batches generalizing groupKeys catalogRevision accepted completed with
  | nil => exact List.Pairwise.nil
  | cons d batches ih =>
    rw [validateGroup] at h
    cases hv : c.validate poisoned (expired d.id) groupKeys catalogRevision d with
    | error e =>
      rw [hv] at h
      cases h
      obtain ⟨hd, hrefused⟩ := List.forall_mem_cons.mp hrefused
      exact List.pairwise_cons.mpr
        ⟨fun y _ hpass => absurd hpass hd, ih rfl hrefused hapart⟩
    | ok u =>
      rw [hv] at h
      cases h
      obtain ⟨hd, hapart⟩ := List.pairwise_cons.mp hapart
      refine List.pairwise_cons.mpr ⟨fun y hy _ hpass => hd y ?_, ih rfl hrefused hapart⟩
      refine (mem_accepted_or_refused hy).resolve_right ?_
      rintro ⟨x, hx, rfl⟩
      exact hrefused x hx hpass

end Coordinator

/-! ### A group and what becomes of it -/

/-- **What the leader does with the group it claims**: the validation, the preparation, and
whether the write goes through. -/
structure Shared.GroupRun (limits : Limits) (s : Shared S) (h : Handle S)
    (expired : ℕ → Bool) where
  accepted : List (Prepared S)
  completed : List (Prepared S × Result ℕ)
  valid : s.coordinator.validateGroup h.poisoned expired ∅ s.coordinator.catalogRevision
    (s.queue.claim limits.group) = (accepted, completed)
  readings : GroupReadings
  answers : List (Prepared S × Result ℕ)
  active : List (Prepared S)
  fault : ∀ m, readings.fault ≠ some (.commitUnknown m)
  group : commitGroup h.poisoned h.lsn h.walBytes limits.wal readings accepted =
    some (answers, active)
  written : Bool

namespace Shared.GroupRun

variable {limits : Limits} {s : Shared S} {h : Handle S} {expired : ℕ → Bool}

/-- The transactions committed behind the group, with their sequences. -/
def commits (run : GroupRun limits s h expired) : List (Prepared S × ℕ) :=
  s.committed ++ if run.written then run.active.zipIdx (h.lsn + 1) else []

/-- **Every conflict has a winner**: a commit behind the base that shares a key with the
member, or changes the catalog when the conflict is one with the catalog. -/
def HasWinners (run : GroupRun limits s h expired) : Prop :=
  ∀ b table entity, (b, .error (.conflict table entity)) ∈ run.completed →
    ∃ c ∈ run.commits, b.base.lsn < c.2 ∧
      ((∃ key ∈ c.1.keys, key ∈ b.keys) ∨ (table = none ∧ c.1.changesCatalog = true))

/-- The deadlines of all members pass before the frames are encoded. -/
theorem exists_dropped (limits : Limits) (s : Shared S) (h : Handle S) (expired : ℕ → Bool) :
    ∃ run : GroupRun limits s h expired, run.active = [] := by
  have hdropped (accepted : List (Prepared S)) : ∃ answers, commitGroup h.poisoned h.lsn h.walBytes
      limits.wal ⟨none, [⟨fun _ => true, fun _ => false⟩]⟩ accepted = some (answers, []) := by
    have hrest : remaining ⟨fun _ => true, fun _ => false⟩ accepted = [] := by simp [remaining]
    unfold commitGroup
    split_ifs with hpoisoned
    · exact ⟨_, rfl⟩
    · simp only [prepareFrames, hrest, encodeFrames, pure, Except.pure, List.all_nil, if_true]
      split_ifs with hlimit
      · exact ⟨_, rfl⟩
      · exact ⟨_, rfl⟩
  cases hvalid : s.coordinator.validateGroup h.poisoned expired ∅ s.coordinator.catalogRevision
    (s.queue.claim limits.group) with
  | mk accepted completed =>
    obtain ⟨answers, hgroup⟩ := hdropped accepted
    exact ⟨⟨accepted, completed, hvalid, _, answers, [], by simp, hgroup, false⟩, rfl⟩

/-- A member that a commit stands against has a winner. -/
theorem exists_winner (hs : s.Backed) (run : GroupRun limits s h expired) {b : Prepared S}
    {table : Option ℕ}
    (hlost : (b.base.lsn < s.coordinator.catalogRevision ∧ table = none) ∨
      ∃ key ∈ b.keys, ∃ r, s.coordinator.revisions[key]? = some r ∧ b.base.lsn < r) :
    ∃ c ∈ run.commits, b.base.lsn < c.2 ∧
      ((∃ key ∈ c.1.keys, key ∈ b.keys) ∨ (table = none ∧ c.1.changesCatalog = true)) := by
  rcases hlost with ⟨hlt, htable⟩ | ⟨key, hkey, r, hr, hlt⟩
  · obtain ⟨c, hc, heq, hchange⟩ := hs.catalog.resolve_left (by omega)
    exact ⟨c, List.mem_append_left _ hc, heq ▸ hlt, Or.inr ⟨htable, hchange⟩⟩
  · obtain ⟨c, hc, rfl, hmem⟩ := hs.key key r hr
    exact ⟨c, List.mem_append_left _ hc, hlt, Or.inl ⟨key, hmem, hkey⟩⟩

end Shared.GroupRun

/-- The coordinator of a run remembers sequences. -/
theorem Shared.Reachable.bounded {limits : Limits} {s : Shared S}
    (hs : Shared.Reachable S limits s) : s.coordinator.Bounded where
  key k r hr := by
    obtain ⟨c, hc, rfl, -⟩ := hs.backed.key k r hr
    exact hs.committed_le c hc
  catalog := by
    rcases hs.backed.catalog with heq | ⟨c, hc, heq, -⟩
    · rw [heq]
      exact Nat.zero_le _
    · rw [← heq]
      exact hs.committed_le c hc

/-- Nothing committed is behind the base of a waiting member that passes on its own. -/
theorem Shared.Serial.not_winner {s : Shared S} {h : Handle S} (hs : s.Serial h)
    (hlock : s.lock = .free) {poisoned : Bool} {expired : ℕ → Bool} {b : Prepared S}
    (hb : b ∈ s.queue.waiting) (hpass : s.coordinator.Passes poisoned expired b)
    {c : Prepared S × ℕ} (hc : c ∈ s.committed)
    (hshare : (∃ key ∈ c.1.keys, key ∈ b.keys) ∨ c.1.changesCatalog = true) :
    c.2 ≤ b.base.lsn := by
  obtain ⟨-, -, hcat, hkeys⟩ := Coordinator.validate_eq_ok.mp hpass
  have hr : s.Remembers c := by
    refine (hs.remembered c hc).resolve_left fun hmem => ?_
    simp [hlock, Lock.answers] at hmem
  rcases hshare with ⟨key, hkey, hkey'⟩ | hchange
  · rcases hr.keys key hkey with ⟨r, hrev, hle⟩ | hall
    · exact hle.trans (hkeys key hkey' r (by simpa [Coordinator.revision] using hrev))
    · exact hall b.base (Shared.mem_views.mpr (by grind))
  · exact (hr.catalog hchange).trans hcat

/-- **When every conflict has a winner.** For a group claimed from any reachable state:
whatever happens to it behind its validation, every conflict has a winner, exactly when no
two of its members that pass validation on their own overlap; and every conflict has a
winner whenever all accepted members are written. -/
theorem Shared.conflict_has_winner_iff {limits : Limits} {s : Shared S}
    (hs : Shared.Reachable S limits s) (hmode : s.sharedMode = true) {h : Handle S}
    (hh : s.system.handle = some h) (hlock : s.lock = .free) (expired : ℕ → Bool) :
    ((∀ run : GroupRun limits s h expired, run.HasWinners) ↔
      (s.queue.claim limits.group).Pairwise fun x y =>
        s.coordinator.Passes h.poisoned expired x → s.coordinator.Passes h.poisoned expired y →
          Coordinator.Apart x y) ∧
    ∀ run : GroupRun limits s h expired, run.written = true → run.active = run.accepted →
      run.HasWinners := by
  have hbacked := hs.backed
  have hserial := hs.serial hmode hh
  have hlost (run : GroupRun limits s h expired) {b : Prepared S} {table entity : Option ℕ}
      (hb : (b, .error (.conflict table entity)) ∈ run.completed) :=
    Coordinator.validateGroup_conflict hs.bounded (.nil _) run.valid hb
  refine ⟨⟨fun hall => ?_, fun hapart run b table entity hb => ?_⟩,
    fun run hwritten hactive b table entity hb => ?_⟩
  · obtain ⟨run, hactive⟩ := GroupRun.exists_dropped limits s h expired
    obtain ⟨-, -, -, haccepted⟩ := Coordinator.validateGroup_spec run.valid (by simp)
    refine Coordinator.pairwise_of_accepted run.valid (fun x hx hpass => ?_) haccepted
    obtain ⟨b, answer⟩ := x
    have hwaiting : b ∈ s.queue.waiting := by
      have hmem := (Coordinator.validateGroup_perm run.valid).1.subset
        (List.mem_append_left _ (List.mem_map_of_mem hx))
      exact List.mem_of_mem_take hmem
    obtain ⟨table, entity, rfl⟩ := Coordinator.conflict_of_passes run.valid hx hpass
    obtain ⟨c, hc, hlt, hshare⟩ := hall run b table entity hx
    have hcommitted : c ∈ s.committed := by simpa [GroupRun.commits, hactive] using hc
    exact hlt.not_ge
      (hserial.not_winner hlock hwaiting hpass hcommitted (hshare.imp id And.right))
  · rcases hlost run hb with hlost | hlost | ⟨hpass, hlt, x, hx, hover⟩
    · exact run.exists_winner hbacked (Or.inl hlost)
    · exact run.exists_winner hbacked (Or.inr hlost)
    · obtain ⟨-, hxpass, l₁, l₂, hsplit, hmem⟩ := hx.resolve_left (List.not_mem_nil)
      rw [hsplit, List.pairwise_append] at hapart
      have hle := hapart.2.2 x hmem b List.mem_cons_self hxpass hpass (hover.imp id And.right)
      omega
  · rcases hlost run hb with hlost | hlost | ⟨hpass, hlt, x, hx, hover⟩
    · exact run.exists_winner hbacked (Or.inl hlost)
    · exact run.exists_winner hbacked (Or.inr hlost)
    · obtain ⟨haccepted, -⟩ := hx.resolve_left (List.not_mem_nil)
      rw [← hactive] at haccepted
      obtain ⟨i, hi, rfl⟩ := List.getElem_of_mem haccepted
      have hbase : b.base.lsn ≤ h.lsn := by
        have hmem := (Coordinator.validateGroup_perm run.valid).1.subset
          (List.mem_append_left _ (List.mem_map_of_mem hb))
        have hwaiting : b ∈ s.queue.waiting := List.mem_of_mem_take hmem
        exact (hs.viewed hh).le b.base (Shared.mem_views.mpr (by grind))
      refine ⟨(run.active[i], h.lsn + 1 + i), ?_, by dsimp only; omega, hover⟩
      rw [GroupRun.commits, hwritten, if_pos rfl]
      exact List.mem_append_right _ (List.mk_mem_zipIdx_iff_le_and_getElem?_sub.mpr
        ⟨Nat.le_add_right _ _, by simp [hi]⟩)

/-! ### Two transactions for one entity -/

section Run

/-- Limits with room for two transactions in a group. -/
def twoLimits : Limits where
  wal := ⟨maxU64⟩
  queue := ⟨2, 16⟩
  group := ⟨2, 16⟩

/-- Two transactions are begun and queued. -/
theorem Shared.Fresh.queued {s : Shared sequenceSemantics} {h : Handle sequenceSemantics}
    (hf : s.Fresh h) (hs : Shared.Reachable sequenceSemantics twoLimits s) (hnext : s.next = 0) :
    Shared.Reachable sequenceSemantics twoLimits
      { s with next := 2, queue := ⟨[oneBatch h, otherBatch h], 2, 16⟩ } := by
  have h₁ := hs.step (.pin _ h hf.handle hf.ready)
  have h₂ := h₁.step (.register _ s.current [] s.pinning rfl)
  have h₃ := h₂.step (.begin _ s.current [] s.pins (oneBatch h) hf.mode rfl hnext.symm
    hf.current.symm)
  have h₄ := h₃.step (.pin _ h hf.handle hf.ready)
  have h₅ := h₄.step (.register _ s.current [] s.pinning rfl)
  have h₆ := h₅.step (.begin _ s.current [] s.pins (otherBatch h) hf.mode rfl (by rw [hnext]; rfl)
    hf.current.symm)
  have henqueue : enqueue twoLimits.queue s.sharedMode h.poisoned ⟨false, false, false, false⟩
      (oneBatch h) s.queue = .ok (.inr ⟨[oneBatch h], 1, 8⟩) := by
    rw [hf.ready, hf.mode, hf.queue]
    rfl
  have h₇ := h₆.step (.submit _ h (oneBatch h) [otherBatch h] s.staging _ _ hf.handle hf.mode rfl
    henqueue)
  have henqueue' : enqueue twoLimits.queue s.sharedMode h.poisoned ⟨false, false, false, false⟩
      (otherBatch h) ⟨[oneBatch h], 1, 8⟩ = .ok (.inr ⟨[oneBatch h, otherBatch h], 2, 16⟩) := by
    rw [hf.ready, hf.mode]
    rfl
  have h₈ := h₇.step (.submit _ h (otherBatch h) [] s.staging _ _ hf.handle hf.mode rfl henqueue')
  simpa only [hf.pinning, hf.pins, hf.staging, hnext, List.nil_append] using h₈

/-- Both are claimed together. -/
theorem claim_twoLimits (h : Handle sequenceSemantics) :
    Queue.claim twoLimits.group ⟨[oneBatch h, otherBatch h], 2, 16⟩ =
      [oneBatch h, otherBatch h] := rfl

/-- The first of two transactions for one entity expires behind its validation: the second
one is refused with a conflict, and nothing has been committed. -/
theorem Shared.exists_conflict_without_winner : ∃ (s : Shared sequenceSemantics) (b : Prepared _),
    Shared.Reachable sequenceSemantics twoLimits s ∧ s.sharedMode = true ∧ s.lock = .free ∧
      (b, .error (.conflict (some 1) (some 1))) ∈ s.results ∧ s.committed = [] := by
  obtain ⟨s, h, hs, hf, hlsn, hstate, hnext, hfirst, hcommitted, hresults⟩ :=
    exists_fresh twoLimits
  have h₁ := hf.queued hs hnext
  have hvalid := validateGroup_pair (b := oneBatch h) (c := otherBatch h) (k := (1, 1)) rfl rfl rfl
    (show h.lsn < maxU64 by rw [hlsn]; decide)
  rw [← hf.coordinator, ← hf.ready, ← claim_twoLimits h] at hvalid
  have h₂ := h₁.step (.claim _ h _ _ _ hf.handle hf.mode hf.lock hvalid)
  have hgroup : commitGroup h.poisoned h.lsn h.walBytes twoLimits.wal
      ⟨none, [⟨fun _ => true, fun _ => false⟩]⟩ [oneBatch h] =
        some ([(oneBatch h, .error .deadlineExceeded)], []) := by
    have hlimit : ¬ maxU64 < saturatingAdd h.walBytes 0 := Nat.not_lt.mpr (min_le_right _ _)
    rw [hf.ready]
    simp [commitGroup, prepareFrames, remaining, resolved, encodeFrames, twoLimits, hlimit, pure,
      Except.pure]
  have h₃ := h₂.step (.reject _ h _ _ _ _ _ hf.handle rfl (by simp) hgroup)
  have h₄ := h₃.step (.finish _ h _ _ _ hf.handle rfl)
  refine ⟨_, otherBatch h, h₄, hf.mode, rfl, ?_, hcommitted⟩
  exact List.mem_append_right _ List.mem_cons_self

/-- Of two transactions for one entity, both may be lost; but not when the first one is
written. -/
theorem Shared.conflict_has_winner_iff_run :
    ∃ (s : Shared sequenceSemantics) (h : Handle sequenceSemantics),
      (∃ run : GroupRun twoLimits s h fun _ => false, ¬ run.HasWinners) ∧
        ∀ run : GroupRun twoLimits s h fun _ => false, run.written = true →
          run.active = run.accepted → run.HasWinners := by
  obtain ⟨s, h, hs, hf, hlsn, hstate, hnext, hfirst, hcommitted, hresults⟩ :=
    exists_fresh twoLimits
  have h₁ := hf.queued hs hnext
  obtain ⟨hiff, hwritten⟩ :=
    Shared.conflict_has_winner_iff h₁ hf.mode hf.handle hf.lock fun _ => false
  refine ⟨_, h, ?_, hwritten⟩
  rw [← not_forall, hiff]
  dsimp only
  rw [claim_twoLimits, hf.coordinator, hf.ready]
  intro hapart
  have hle := (List.pairwise_pair.mp hapart) (validate_new _) (validate_new _)
    (Or.inl ⟨(1, 1), List.mem_cons_self, List.mem_cons_self⟩)
  rw [show (otherBatch h).base.lsn = h.lsn from rfl, hlsn] at hle
  exact absurd hle (by decide)

end Run

end EveDB
