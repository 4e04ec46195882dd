import EveDB.Shared.Coordinator

/-!
# What validation and the record do

The two facts the coordinator rests on. An accepted member began at or behind every
revision of its keys, and behind the catalog revision, or at the largest sequence there
is, behind which nothing is committed any more (`Coordinator.validateGroup_spec`). And
recording the answers of a group leaves every key of a published member with a revision
not below its sequence (`Coordinator.record_spec`).

The last section is about the loop of the group commit: what it answers, and what it
leaves to be written.
-/

namespace EveDB

open Std

variable {E : Engine} {S : Semantics E}

/-- The error leaves the outcome of a commit open. -/
def Error.IsUnknown (e : Error) : Prop := ∃ m, e = .commitUnknown m

namespace Coordinator

/-! ### Validation -/

section Validation

variable {c : Coordinator} {poisoned : Bool} {groupKeys : SortedMap EntityKey ℕ}
  {catalogRevision : ℕ} {b : Prepared S}

/-- A member passes validation when nothing it touches has been written since. -/
theorem validate_eq_ok {expired : Bool} :
    c.validate poisoned expired groupKeys catalogRevision b = .ok () ↔
      poisoned = false ∧ expired = false ∧ catalogRevision ≤ b.base.lsn ∧
        ∀ key ∈ b.keys, ∀ lsn, c.revision groupKeys key = some lsn → lsn ≤ b.base.lsn := by
  unfold validate
  cases poisoned <;> cases expired <;> simp only [if_true, if_false, Bool.false_eq_true,
    reduceCtorEq, false_and, and_false, true_and]
  by_cases hcat : catalogRevision > b.base.lsn
  · simp [hcat]
  · have hfind : c.conflicting groupKeys b.base.lsn b.keys = none ↔
        ∀ key ∈ b.keys, ∀ lsn, c.revision groupKeys key = some lsn → lsn ≤ b.base.lsn := by
      rw [conflicting, List.find?_eq_none]
      refine forall₂_congr fun key _ => ?_
      cases c.revision groupKeys key <;> simp
    rw [if_neg hcat, ← hfind]
    have hle : catalogRevision ≤ b.base.lsn := Nat.le_of_not_lt hcat
    cases c.conflicting groupKeys b.base.lsn b.keys <;> simp [hle]

/-- The placeholders of a member cover its keys, and change no other key. -/
theorem getElem?_placeholders (keys : List EntityKey) (groupKeys : SortedMap EntityKey ℕ)
    (sequence : ℕ) (key : EntityKey) :
    (keys.foldl (fun keys key => keys.insert key sequence) groupKeys)[key]? =
      if key ∈ keys then some sequence else groupKeys[key]? := by
  induction keys generalizing groupKeys with
  | nil => simp
  | cons k ks ih =>
    rw [List.foldl_cons, ih, ExtTreeMap.getElem?_insert]
    by_cases hks : key ∈ ks
    · simp [hks]
    · by_cases hk : k = key
      · simp [hk]
      · have : compare k key ≠ .eq := fun h => hk (LawfulEqOrd.eq_of_compare h)
        simp [hks, this, Ne.symm hk]

/-- Two members of a group are apart unless the second began at the largest sequence. -/
def Apart (b b' : Prepared S) : Prop :=
  (∃ key ∈ b.keys, key ∈ b'.keys) ∨ b.changesCatalog = true → maxU64 ≤ b'.base.lsn

/-- **What validation accepts.** -/
theorem validateGroup_spec {expired : ℕ → Bool} {batches accepted : List (Prepared S)}
    {completed : List (Prepared S × Result ℕ)}
    (h : c.validateGroup poisoned expired groupKeys catalogRevision batches =
      (accepted, completed))
    (hgroup : ∀ (key : EntityKey) lsn, groupKeys[key]? = some lsn → lsn = maxU64) :
    accepted.Sublist batches ∧
      (∀ b ∈ accepted, catalogRevision ≤ b.base.lsn ∨ maxU64 ≤ b.base.lsn) ∧
      (∀ b ∈ accepted, ∀ key ∈ b.keys, ∀ lsn, c.revision groupKeys key = some lsn →
        lsn ≤ b.base.lsn ∨ maxU64 ≤ b.base.lsn) ∧
      accepted.Pairwise Apart := by
  induction batches generalizing groupKeys catalogRevision accepted completed with
  | nil =>
    cases h
    simp
  | cons b batches ih =>
    rw [validateGroup] at h
    cases hv : c.validate poisoned (expired b.id) groupKeys catalogRevision b with
    | error e =>
      rw [hv] at h
      cases h
      obtain ⟨hsub, hcat, hkeys, hpair⟩ := ih rfl hgroup
      exact ⟨hsub.trans (List.sublist_cons_self _ _), hcat, hkeys, hpair⟩
    | ok u =>
      rw [hv] at h
      cases h
      obtain ⟨-, -, hbcat, hbkeys⟩ := validate_eq_ok.mp hv
      have hgroup' : ∀ (key : EntityKey) lsn,
          (b.keys.foldl (fun keys key => keys.insert key maxU64) groupKeys)[key]? = some lsn →
            lsn = maxU64 := by
        intro key lsn hkey
        rw [getElem?_placeholders] at hkey
        split at hkey
        · exact (Option.some.inj hkey).symm
        · exact hgroup key lsn hkey
      obtain ⟨hsub, hcat, hkeys, hpair⟩ := ih rfl hgroup'
      refine ⟨hsub.cons_cons b, fun b' hb' => ?_, fun b' hb' key hkey lsn hlsn => ?_,
        List.pairwise_cons.mpr ⟨fun b' hb' hshare => ?_, hpair⟩⟩
      · rcases List.mem_cons.mp hb' with rfl | hb'
        · exact Or.inl hbcat
        · have := hcat b' hb'
          split at this
          · exact Or.inr (this.elim id id)
          · exact this
      · rcases List.mem_cons.mp hb' with rfl | hb'
        · exact Or.inl (hbkeys key hkey lsn hlsn)
        · have := hkeys b' hb' key hkey
          rw [revision, getElem?_placeholders] at this
          split at this
          · exact Or.inr ((this maxU64 rfl).elim id id)
          · exact this lsn hlsn
      · rcases hshare with ⟨key, hkey, hkey'⟩ | hchange
        · have := hkeys b' hb' key hkey'
          rw [revision, getElem?_placeholders, if_pos hkey] at this
          exact (this maxU64 rfl).elim id id
        · have := hcat b' hb'
          rw [if_pos hchange] at this
          exact this.elim id id

/-- **Validation sorts the members of a group**: each is accepted, or has failed for
good. -/
theorem validateGroup_perm {expired : ℕ → Bool} {batches accepted : List (Prepared S)}
    {completed : List (Prepared S × Result ℕ)}
    (h : c.validateGroup poisoned expired groupKeys catalogRevision batches =
      (accepted, completed)) :
    List.Perm (completed.map Prod.fst ++ accepted) batches ∧
      ∀ x ∈ completed, ∃ e : Error, x.2 = .error e ∧ ¬ e.IsUnknown := by
  induction batches generalizing groupKeys catalogRevision accepted completed with
  | nil =>
    cases h
    simp
  | cons b batches ih =>
    rw [validateGroup] at h
    cases hv : c.validate poisoned (expired b.id) groupKeys catalogRevision b with
    | error e =>
      rw [hv] at h
      cases h
      obtain ⟨hperm, herror⟩ := ih rfl
      refine ⟨hperm.cons b, fun x hx => ?_⟩
      rcases List.mem_cons.mp hx with rfl | hx
      · refine ⟨e, rfl, ?_⟩
        rintro ⟨m, rfl⟩
        unfold validate at hv
        split_ifs at hv
        · cases hv
        · cases hv
        · cases hv
        · split at hv <;> cases hv
      · exact herror x hx
    | ok u =>
      rw [hv] at h
      cases h
      obtain ⟨hperm, herror⟩ := ih rfl
      exact ⟨List.perm_middle.trans (hperm.cons b), herror⟩

/-- What validation refuses was a member of the group. -/
theorem mem_of_mem_refused {expired : ℕ → Bool} {batches : List (Prepared S)}
    {x : Prepared S × Result ℕ}
    (h : x ∈ (c.validateGroup poisoned expired groupKeys catalogRevision batches).2) :
    x.1 ∈ batches :=
  (validateGroup_perm rfl).1.subset (List.mem_append_left _ (List.mem_map_of_mem h))

/-- A member of the group is accepted, or refused. -/
theorem mem_accepted_or_refused {expired : ℕ → Bool} {batches : List (Prepared S)}
    {b : Prepared S} (h : b ∈ batches) :
    b ∈ (c.validateGroup poisoned expired groupKeys catalogRevision batches).1 ∨
      ∃ x ∈ (c.validateGroup poisoned expired groupKeys catalogRevision batches).2, x.1 = b := by
  rcases List.mem_append.mp ((validateGroup_perm rfl).1.symm.subset h) with hb | hb
  · exact Or.inr (List.mem_map.mp hb)
  · exact Or.inl hb

end Validation

/-! ### The record -/

section Record

variable {c : Coordinator} {answers : List (Prepared S × Result ℕ)}

/-- The sequences of published members ascend. -/
def Ascending (answers : List (Prepared S × Result ℕ)) : Prop :=
  answers.Pairwise fun x y => ∀ n m, x.2 = .ok n → y.2 = .ok m → n ≤ m

/-- A bound below all sequences recorded stays one. -/
theorem record_mono {n : ℕ} (hn : ∀ x ∈ answers, ∀ m, x.2 = .ok m → n ≤ m) :
    (∀ key : EntityKey, (∃ r, c.revisions[key]? = some r ∧ n ≤ r) →
      ∃ r, (c.record answers).revisions[key]? = some r ∧ n ≤ r) ∧
    (n ≤ c.catalogRevision → n ≤ (c.record answers).catalogRevision) := by
  induction answers generalizing c with
  | nil => exact ⟨fun _ h => h, fun h => h⟩
  | cons x answers ih =>
    obtain ⟨b, answer⟩ := x
    have hx := hn (b, answer) List.mem_cons_self
    have ih := fun c : Coordinator =>
      ih (c := c) fun y hy => hn y (List.mem_cons_of_mem _ hy)
    rw [record, List.foldl_cons]
    cases answer with
    | error e => exact ih c
    | ok m =>
      have hm : n ≤ m := hx m rfl
      obtain ⟨ihkey, ihcat⟩ := ih
        { revisions := b.keys.foldl (fun keys key => keys.insert key m) c.revisions
          catalogRevision := if b.changesCatalog then m else c.catalogRevision }
      refine ⟨fun key hkey => ihkey key ?_, fun hcat => ihcat ?_⟩
      · rw [getElem?_placeholders]
        split
        · exact ⟨m, rfl, hm⟩
        · exact hkey
      · dsimp only
        split
        · exact hm
        · exact hcat

/-- **What the record leaves**: a published member's keys have revisions not below its
sequence, and so has the catalog if the member changed it. -/
theorem record_spec (hasc : Ascending answers) {b : Prepared S} {n : ℕ}
    (hb : (b, .ok n) ∈ answers) :
    (∀ key ∈ b.keys, ∃ r, (c.record answers).revisions[key]? = some r ∧ n ≤ r) ∧
      (b.changesCatalog = true → n ≤ (c.record answers).catalogRevision) := by
  induction answers generalizing c with
  | nil => cases hb
  | cons x answers ih =>
    obtain ⟨hx, hasc⟩ := List.pairwise_cons.mp hasc
    rcases List.mem_cons.mp hb with rfl | hb
    · have hmono := record_mono (c := {
          revisions := b.keys.foldl (fun keys key => keys.insert key n) c.revisions
          catalogRevision := if b.changesCatalog then n else c.catalogRevision })
        fun y hy m hm => hx y hy n m rfl hm
      refine ⟨fun key hkey => hmono.1 key ⟨n, ?_, le_rfl⟩, fun hchange => hmono.2 ?_⟩
      · rw [getElem?_placeholders, if_pos hkey]
      · rw [if_pos hchange]
    · exact ih hasc hb

/-- What pruning keeps. -/
theorem getElem?_pruneRevisions {oldest r : ℕ} {key : EntityKey}
    (h : c.revisions[key]? = some r) :
    (c.pruneRevisions oldest).revisions[key]? = some r ∨ r ≤ oldest := by
  by_cases hr : oldest < r
  · left
    rw [pruneRevisions, ExtTreeMap.getElem?_filter]
    simp [h, hr]
  · exact Or.inr (by omega)

end Record

end Coordinator

/-! ### The group commit -/

section GroupCommit

variable {batches active : List (Prepared S)} {answers : List (Prepared S × Result ℕ)}

/-- An answer from before the log is written: an empty transaction succeeds at its base,
and any other one has failed for good. -/
def Unwritten (x : Prepared S × Result ℕ) : Prop :=
  (x.1.isEmpty = true ∧ x.2 = .ok x.1.base.lsn) ∨ ∃ e : Error, x.2 = .error e ∧ ¬ e.IsUnknown

/-- A failed encoding is not a failed write. -/
theorem encodeFrames_error {lsn offset : ℕ} {e : Error}
    (h : encodeFrames lsn offset batches = .error e) : ¬ e.IsUnknown := by
  rintro ⟨m, rfl⟩
  induction batches generalizing offset with
  | nil => cases h
  | cons b batches ih =>
    rw [encodeFrames] at h
    cases hlsn : checkedAdd lsn (offset + 1) with
    | none => simp [hlsn] at h
    | some sequence =>
      simp only [hlsn, Frame.encode] at h
      split at h
      · cases h
      · rw [ok_bind] at h
        cases hrest : encodeFrames lsn (offset + 1) batches with
        | error e =>
          rw [hrest] at h
          cases h
          exact ih hrest
        | ok frames =>
          rw [hrest] at h
          cases h

@[simp] theorem map_fst_answerAll (e : Error) (batches : List (Prepared S)) :
    (answerAll e batches).map Prod.fst = batches := by
  simp [answerAll, Function.comp_def]

@[simp] theorem map_fst_published (lsn : ℕ) (active : List (Prepared S)) :
    (published lsn active).map Prod.fst = active := by
  induction active generalizing lsn with
  | nil => rfl
  | cons b active ih => rw [published, List.map_cons, ih]

/-- All members of a group are answered alike. -/
theorem unwritten_of_mem_answerAll {e : Error} (he : ¬ e.IsUnknown) {x : Prepared S × Result ℕ}
    (hx : x ∈ answerAll e batches) : Unwritten x := by
  obtain ⟨b, -, rfl⟩ := List.mem_map.mp hx
  exact Or.inr ⟨e, rfl, he⟩

/-- A round splits the members into answered ones and the rest. -/
theorem resolved_spec (round : Round) (active : List (Prepared S)) :
    List.Perm ((resolved round active).map Prod.fst ++ remaining round active) active ∧
      ∀ x ∈ resolved round active, Unwritten x := by
  induction active with
  | nil => simp [resolved, remaining]
  | cons b active ih =>
    obtain ⟨hperm, hunwritten⟩ := ih
    by_cases hexpired : round.expired b.id = true
    · have hres : resolved round (b :: active) =
          (b, .error .deadlineExceeded) :: resolved round active := by
        simp [resolved, hexpired]
      have hrem : remaining round (b :: active) = remaining round active := by
        simp [remaining, hexpired]
      rw [hres, hrem]
      refine ⟨hperm.cons b, fun x hx => ?_⟩
      rcases List.mem_cons.mp hx with rfl | hx
      · exact Or.inr ⟨_, rfl, by rintro ⟨m, hm⟩; cases hm⟩
      · exact hunwritten x hx
    · by_cases hempty : b.isEmpty = true
      · have hres : resolved round (b :: active) =
            (b, .ok b.base.lsn) :: resolved round active := by
          simp [resolved, hexpired, hempty]
        have hrem : remaining round (b :: active) = remaining round active := by
          simp [remaining, hempty]
        rw [hres, hrem]
        refine ⟨hperm.cons b, fun x hx => ?_⟩
        rcases List.mem_cons.mp hx with rfl | hx
        · exact Or.inl ⟨hempty, rfl⟩
        · exact hunwritten x hx
      · have hres : resolved round (b :: active) = resolved round active := by
          simp [resolved, hexpired, hempty]
        have hrem : remaining round (b :: active) = b :: remaining round active := by
          simp [remaining, hexpired, hempty]
        rw [hres, hrem]
        exact ⟨List.perm_middle.trans (hperm.cons b), hunwritten⟩

/-- **The loop of the group commit** answers some members, keeps the others in order, and
keeps no empty one. -/
theorem prepareFrames_spec {lsn : ℕ} {rounds : List Round} {r : Result (List Bytes)}
    (h : prepareFrames lsn rounds batches = some (answers, active, r)) :
    List.Perm (answers.map Prod.fst ++ active) batches ∧ active.Sublist batches ∧
      (∀ b ∈ active, b.isEmpty = false) ∧ (∀ x ∈ answers, Unwritten x) ∧
      ∀ e, r = .error e → ¬ e.IsUnknown := by
  induction rounds generalizing batches answers with
  | nil => cases h
  | cons round rounds ih =>
    obtain ⟨hperm, hunwritten⟩ := resolved_spec round batches
    have hsub : (remaining round batches).Sublist batches := List.filter_sublist
    have hne : ∀ b ∈ remaining round batches, b.isEmpty = false := fun b hb => by
      simpa using (of_decide_eq_true (List.mem_filter.mp hb).2).2
    rw [prepareFrames] at h
    cases hframes : encodeFrames lsn 0 (remaining round batches) with
    | error e =>
      simp only [hframes, Option.some.injEq, Prod.mk.injEq] at h
      obtain ⟨rfl, rfl, rfl⟩ := h
      refine ⟨hperm, hsub, hne, hunwritten, fun e' he' => ?_⟩
      cases he'
      exact encodeFrames_error hframes
    | ok frames =>
      simp only [hframes] at h
      split at h
      · simp only [Option.some.injEq, Prod.mk.injEq] at h
        obtain ⟨rfl, rfl, rfl⟩ := h
        exact ⟨hperm, hsub, hne, hunwritten, fun e' he' => by cases he'⟩
      · obtain ⟨⟨answers', last⟩, hlast, heq⟩ := Option.bind_eq_some_iff.mp h
        cases heq
        obtain ⟨hperm', hsub', hne', hunwritten', herror⟩ := ih hlast
        refine ⟨?_, hsub'.trans hsub, hne', fun x hx => ?_, herror⟩
        · rw [List.map_append, List.append_assoc]
          exact (List.Perm.append_left _ hperm').trans hperm
        · rcases List.mem_append.mp hx with hx | hx
          · exact hunwritten x hx
          · exact hunwritten' x hx

/-- **What a group commit answers before it writes.** -/
theorem commitGroup_spec {poisoned : Bool} {lsn walBytes : ℕ} {limits : WalLimits}
    {readings : GroupReadings} (hfault : ∀ m, readings.fault ≠ some (.commitUnknown m))
    (h : commitGroup poisoned lsn walBytes limits readings batches = some (answers, active)) :
    List.Perm (answers.map Prod.fst ++ active) batches ∧ active.Sublist batches ∧
      (∀ b ∈ active, b.isEmpty = false) ∧ ∀ x ∈ answers, Unwritten x := by
  have hall : ∀ (e : Error), ¬ e.IsUnknown → (answerAll e batches, []) = (answers, active) →
      List.Perm (answers.map Prod.fst ++ active) batches ∧ active.Sublist batches ∧
        (∀ b ∈ active, b.isEmpty = false) ∧ ∀ x ∈ answers, Unwritten x := by
    rintro e he ⟨⟩
    exact ⟨by rw [map_fst_answerAll, List.append_nil], List.nil_sublist _,
      fun b hb => (nomatch hb), fun x => unwritten_of_mem_answerAll he⟩
  unfold commitGroup at h
  split at h
  · exact hall .needsRecovery (by rintro ⟨m, hm⟩; cases hm) (Option.some.inj h)
  · cases hf : readings.fault with
    | some e =>
      rw [hf] at h
      exact hall e (by rintro ⟨m, rfl⟩; exact hfault m hf) (Option.some.inj h)
    | none =>
      rw [hf] at h
      cases hp : prepareFrames lsn readings.rounds batches with
      | none => simp [hp] at h
      | some out =>
        obtain ⟨answers', active', r⟩ := out
        obtain ⟨hperm, hsub, hne, hunwritten, herror⟩ := prepareFrames_spec hp
        have hfail : ∀ e : Error, ¬ e.IsUnknown →
            (answers' ++ answerAll e active', []) = (answers, active) →
            List.Perm (answers.map Prod.fst ++ active) batches ∧ active.Sublist batches ∧
              (∀ b ∈ active, b.isEmpty = false) ∧ ∀ x ∈ answers, Unwritten x := by
          rintro e he ⟨⟩
          refine ⟨by rw [List.map_append, map_fst_answerAll, List.append_nil]; exact hperm,
            List.nil_sublist _, fun b hb => (nomatch hb), fun x hx => ?_⟩
          exact (List.mem_append.mp hx).elim (hunwritten x) (unwritten_of_mem_answerAll he)
        rw [hp] at h
        cases r with
        | error e => exact hfail e (herror e rfl) (Option.some.inj h)
        | ok frames =>
          dsimp only at h
          split at h
          · exact hfail _ (by rintro ⟨m, hm⟩; cases hm) (Option.some.inj h)
          · cases h
            exact ⟨hperm, hsub, hne, hunwritten⟩

/-- The answers of a written group: its members in order, under the sequences behind
`lsn`. -/
theorem published_eq (lsn : ℕ) (active : List (Prepared S)) :
    published lsn active = (active.zipIdx (lsn + 1)).map fun x => (x.1, .ok x.2) := by
  induction active generalizing lsn with
  | nil => rfl
  | cons b active ih => rw [published, ih]; rfl

/-- The sequences of a written group ascend, behind any failures. -/
theorem ascending_published (herror : ∀ x ∈ answers, ∃ e, x.2 = .error e) (lsn : ℕ)
    (active : List (Prepared S)) :
    Coordinator.Ascending (answers ++ published lsn active) := by
  refine List.pairwise_append.mpr ⟨?_, ?_, fun x hx y _ n m hn => ?_⟩
  · induction answers with
    | nil => exact List.Pairwise.nil
    | cons x answers ih =>
      obtain ⟨hx, herror⟩ := List.forall_mem_cons.mp herror
      refine List.pairwise_cons.mpr ⟨fun y _ n m hn => ?_, ih herror⟩
      obtain ⟨e, he⟩ := hx
      simp [he] at hn
  · induction active generalizing lsn with
    | nil => exact List.Pairwise.nil
    | cons b active ih =>
      rw [published]
      refine List.pairwise_cons.mpr ⟨fun y hy n m hn hm => ?_, ih (lsn + 1)⟩
      rw [published_eq] at hy
      obtain ⟨z, hz, rfl⟩ := List.mem_map.mp hy
      obtain ⟨hle, -, -⟩ := List.mem_zipIdx hz
      cases hn
      cases hm
      omega
  · obtain ⟨e, he⟩ := herror x hx
    simp [he] at hn

end GroupCommit

end EveDB
