import EveDB.Running.System
import EveDB.Store.Bound

/-!
# What a group commit does to a shared database

The revision of the catalog tells which views are of the catalog there is (`Database.Watches`): one
that has begun behind the last definition of a table is. A group keeps this, and takes no table away
(`Database.Watches.commit`), however the write of its frames ends.
-/

namespace EveDB

open Std Store

namespace Store

/-- Publishing batches does not end the sharing. -/
theorem publishEach_sharedMode (bs : List Prepared) (db : Database) :
    (publishEach bs db).sharedMode = db.sharedMode := by
  induction bs generalizing db with
  | nil => rfl
  | cons b bs ih => exact ih _

section Write

variable {env : Env} {checkpoint : Database → Result Unit × Database} {tick : ℕ}
  {batches : List Prepared} {db db' : Database} {answers : List (Option (Result ℕ))}

/-- **A write that fails** leaves everything as it is but for the log, and whoever was to be written
gets the error. -/
theorem commitGroup_write {write : WalWrite} (hshared : db.sharedMode = true)
    (hbase : ∀ b ∈ batches, b.baseSequence ≤ db.state.lsn)
    (h : commitGroup env checkpoint write tick batches db = (answers, db')) :
    commitGroup env checkpoint .done tick batches db = (answers, db') ∨
      ∃ wal e, db' = { db with wal, poisoned := true } ∧
        List.Forall₂ (fun b a =>
          Store.Passed env (preparationEnd env db.state.root db.state.lsn tick batches) b a ∨
            a = some (.error e)) batches answers := by
  unfold commitGroup at h ⊢
  dsimp only at h ⊢
  split at h
  · next hclosed =>
    rw [if_pos hclosed]
    exact Or.inl h
  next hopen =>
  rw [if_neg hopen]
  have hnot : ¬(¬db.sharedMode = true ∧ db.options.checkpointBytes ≤ db.wal.length ∧
      db.state.root.manifest.lsn < db.state.lsn) := by
    rw [hshared]
    exact fun hdue => hdue.1 rfl
  rw [if_neg hnot] at h ⊢
  dsimp only at h ⊢
  split at h
  · exact Or.inl h
  next ms tick₀ hms =>
  obtain ⟨bs, rfl, hbound⟩ := rebindGroup_spec hms
  have hbs := rebound_base hbound hbase
  have hlast : roundsEnd env db.state.lsn ((bs.map fun batch => Member.mk batch none).length + 1)
      tick₀ (bs.map fun batch => ⟨batch, none⟩) ≤
        preparationEnd env db.state.root db.state.lsn tick batches := by
    rw [preparationEnd, hms]
  have hfresh : List.Forall₂
      (Tracks env (preparationEnd env db.state.root db.state.lsn tick batches)) bs
        (bs.map fun batch => ⟨batch, none⟩) :=
    List.forall₂_map_right_iff.mpr
      (List.forall₂_same.mpr fun b _ => .active (Prepared.SameButStamps.refl b))
  split at h
  · exact Or.inl h
  · exact Or.inl h
  next frames ms' hrounds =>
  obtain ⟨htracks, -⟩ := rounds_spec le_rfl hbs hlast hfresh hrounds
  unfold writeGroup at h ⊢
  dsimp only at h ⊢
  split at h
  · next hlimit =>
    rw [if_pos hlimit]
    exact Or.inl h
  next hlimit =>
  rw [if_neg hlimit]
  split at h
  · next hnil =>
    rw [if_pos hnil]
    exact Or.inl h
  next hne =>
  rw [if_neg hne]
  split at h
  · cases h
    exact Or.inr ⟨_, _, rfl, refuse_passed _ hbound htracks⟩
  · exact Or.inl h

end Write

end Store

/-! ### Revisions -/

section Record

variable {E : Engine} {S : Semantics E}

/-- **The revision of the catalog** behind a group is the one before it, or the sequence of a member
that was published and defines a table. -/
theorem Coordinator.catalogRevision_record (c : Coordinator)
    (answers : List (EveDB.Prepared S × Result ℕ)) :
    ((c.record answers).catalogRevision = c.catalogRevision ∧
        ∀ (p : EveDB.Prepared S) (n : ℕ), (p, .ok n) ∈ answers → p.changesCatalog = false) ∨
      ∃ (p : EveDB.Prepared S) (n : ℕ), (p, .ok n) ∈ answers ∧ p.changesCatalog = true ∧
        (c.record answers).catalogRevision = n := by
  induction answers generalizing c with
  | nil => exact Or.inl ⟨rfl, fun _ _ hmem => absurd hmem List.not_mem_nil⟩
  | cons x answers ih =>
    obtain ⟨p, e | n⟩ := x
    · rcases ih c with ⟨heq, hnone⟩ | ⟨q, n, hq, hchanges, heq⟩
      · refine Or.inl ⟨heq, fun q n hq => ?_⟩
        rcases List.mem_cons.mp hq with hq | hq
        · cases hq
        · exact hnone q n hq
      · exact Or.inr ⟨q, n, List.mem_cons_of_mem _ hq, hchanges, heq⟩
    · rcases ih { revisions := p.keys.foldl (fun keys key => keys.insert key n) c.revisions
                  catalogRevision := if p.changesCatalog then n else c.catalogRevision } with
        ⟨heq, hnone⟩ | ⟨q, m, hq, hchanges, heq⟩
      · have hrecord : (c.record ((p, .ok n) :: answers)).catalogRevision =
            if p.changesCatalog then n else c.catalogRevision := heq
        cases hp : p.changesCatalog with
        | true =>
          rw [hp, if_pos rfl] at hrecord
          exact Or.inr ⟨p, n, List.mem_cons_self, hp, hrecord⟩
        | false =>
          rw [hp, if_neg Bool.false_ne_true] at hrecord
          refine Or.inl ⟨hrecord, fun q m hq => ?_⟩
          rcases List.mem_cons.mp hq with hq | hq
          · cases hq
            exact hp
          · exact hnone q m hq
      · exact Or.inr ⟨q, m, List.mem_cons_of_mem _ hq, hchanges, heq⟩

/-- The members of a group and its batches have the same answers. -/
theorem Running.mem_answered {batches : List Store.Prepared}
    {accepted : List (EveDB.Prepared S)}
    (haccepted : List.Forall₂ Prepared.Represents batches accepted)
    {answers : List (Option (Result ℕ))} {r : Result ℕ} :
    (∀ p, (p, r) ∈ answered accepted answers →
      ∃ b ∈ batches, b.Represents p ∧ (b, some r) ∈ batches.zip answers) ∧
    (∀ b, (b, some r) ∈ batches.zip answers →
      ∃ p, b.Represents p ∧ (p, r) ∈ answered accepted answers) := by
  induction haccepted generalizing answers with
  | nil => exact ⟨fun p hp => absurd hp List.not_mem_nil, fun b hb => absurd hb List.not_mem_nil⟩
  | @cons b q batches accepted hb _ ih =>
    cases answers with
    | nil => exact ⟨fun p hp => absurd hp List.not_mem_nil, fun b hb => absurd hb List.not_mem_nil⟩
    | cons a answers =>
      obtain ⟨hmember, hbatch⟩ := @ih answers
      constructor
      · rintro p hp
        have hp : some (p, r) = a.map (fun answer => (q, answer)) ∨
            (p, r) ∈ answered accepted answers := by
          obtain ⟨⟨q', a'⟩, hzip, heq⟩ := List.mem_filterMap.mp hp
          rcases List.mem_cons.mp hzip with hhead | hzip
          · cases hhead
            exact Or.inl heq.symm
          · exact Or.inr (List.mem_filterMap.mpr ⟨(q', a'), hzip, heq⟩)
        rcases hp with hp | hp
        · obtain ⟨r', rfl, heq⟩ := Option.map_eq_some_iff.mp hp.symm
          cases heq
          exact ⟨b, List.mem_cons_self, hb, List.mem_cons_self⟩
        · obtain ⟨b', hb', hrep, hzip⟩ := hmember p hp
          exact ⟨b', List.mem_cons_of_mem _ hb', hrep, List.mem_cons_of_mem _ hzip⟩
      · rintro b' hb'
        rcases List.mem_cons.mp hb' with hhead | hzip
        · cases hhead
          exact ⟨q, hb, List.mem_filterMap.mpr ⟨(q, some r), List.mem_cons_self, rfl⟩⟩
        · obtain ⟨p, hrep, hp⟩ := hbatch b' hzip
          obtain ⟨x, hx, heq⟩ := List.mem_filterMap.mp hp
          exact ⟨p, hrep, List.mem_filterMap.mpr ⟨x, List.mem_cons_of_mem _ hx, heq⟩⟩

/-- What has been committed has its sequence, and is not empty. -/
theorem Store.mem_committed {batches : List Store.Prepared} {answers : List (Option (Result ℕ))}
    {p : Store.Prepared × ℕ} :
    p ∈ committed batches answers ↔
      (p.1, some (.ok p.2)) ∈ batches.zip answers ∧ p.1.isEmpty = false := by
  obtain ⟨b, n⟩ := p
  rw [committed, List.mem_filterMap]
  constructor
  · rintro ⟨⟨b', a⟩, hzip, heq⟩
    rcases a with _ | e | m
    · cases heq
    · cases heq
    · dsimp only at heq
      split at heq
      · cases heq
      · next hempty =>
        cases heq
        exact ⟨hzip, Bool.eq_false_iff.mpr hempty⟩
  · rintro ⟨hzip, hempty⟩
    refine ⟨(b, some (.ok n)), hzip, ?_⟩
    dsimp only at hempty ⊢
    rw [hempty]
    rfl

/-- It is one of the batches. -/
theorem Store.mem_of_committed {batches : List Store.Prepared} {answers : List (Option (Result ℕ))}
    {p : Store.Prepared × ℕ} (h : p ∈ committed batches answers) : p.1 ∈ batches :=
  (committed_sublist batches answers).subset (List.mem_map_of_mem h)

end Record

/-! ### Groups -/

/-- **The revision of the catalog tells** whether a view has the catalog there is. -/
structure Store.Database.Watches (c : Coordinator) (db : Database) (view : ReadState) : Prop where
  behind : view.lsn ≤ db.state.lsn
  catalog : c.catalogRevision ≤ view.lsn → view.catalog = db.state.catalog

/-- **What a group commit does** to a database and its coordinator. -/
structure Store.Database.Moves (c c' : Coordinator) (db db' : Database) : Prop where
  sharedMode : db'.sharedMode = true
  root : db'.state.root = db.state.root
  published : db.published = db.state → db'.published = db'.state
  behind : db.state.lsn ≤ db'.state.lsn
  bounded : db.state.lsn ≤ maxU64 → db'.state.lsn ≤ maxU64
  catalog : ∀ table ∈ db.state.catalog, table ∈ db'.state.catalog
  revision : c.catalogRevision ≤ db.state.lsn → c'.catalogRevision ≤ db'.state.lsn
  watches : ∀ view, db.Watches c view → db'.Watches c' view

section Commit

variable {E : Engine} {S : Semantics E} {c : Coordinator} {late : ℕ → Bool} {poisoned : Bool}
  {claimed accepted : List (EveDB.Prepared S)} {completed : List (EveDB.Prepared S × Result ℕ)}
  {call : CommitCall} {answers : List (Option (Result ℕ))} {db db' : Database}
  {views : List ReadState}

/-- Where nobody gets a sequence, the revision of the catalog stays. -/
theorem Running.catalogRevision_refused {env : Env} {last : ℕ} {e : Error}
    {batches : List Store.Prepared}
    (haccepted : List.Forall₂ Prepared.Represents batches accepted)
    (h : List.Forall₂ (fun b a => Store.Passed env last b a ∨ a = some (.error e)) batches
      answers) :
    (c.record (answered accepted answers)).catalogRevision = c.catalogRevision := by
  rcases c.catalogRevision_record (answered accepted answers) with ⟨heq, -⟩ | ⟨p, n, hp, hchanges,
    -⟩
  · exact heq
  · obtain ⟨b, -, hrep, hzip⟩ := (mem_answered haccepted).1 p hp
    have hanswer : Store.Passed env last b (some (.ok n)) ∨ (some (.ok n) : Option (Result ℕ)) =
        some (.error e) := List.forall₂_iff_zip.mp h |>.2 hzip
    rcases hanswer with (⟨hempty, -⟩ | ⟨hlate, -⟩) | herror
    · rw [hrep.changesCatalog, b.changesCatalog_of_isEmpty hempty] at hchanges
      cases hchanges
    · cases hlate
    · cases herror

/-- In a group that has passed validation whatever comes behind the definition of a table has begun
at the largest sequence there is. -/
theorem Running.defines_of_represents {batches : List Store.Prepared}
    (haccepted : List.Forall₂ Prepared.Represents batches accepted)
    (hapart : accepted.Pairwise Coordinator.Apart) :
    batches.Pairwise fun b b' => b.changesCatalog = true → maxU64 ≤ b'.baseSequence := by
  induction haccepted with
  | nil => exact .nil
  | @cons b p batches accepted hbp hrest ih =>
    obtain ⟨hhead, hpairwise⟩ := List.pairwise_cons.mp hapart
    refine List.pairwise_cons.mpr ⟨fun b' hb' hchanges => ?_, ih hpairwise⟩
    obtain ⟨q, hq, hbq⟩ := exists_related hrest hb'
    rw [← hbq.baseSequence]
    exact hhead q hq (Or.inr (hbp.changesCatalog.trans hchanges))

/-- **What lands in a group has the catalog there is**: nothing of it has begun at the largest
sequence, so all of it has begun behind the last definition of a table. -/
theorem Store.Database.committed_current (hviews : ∀ view ∈ views, db.Watches c view)
    (hvalid : c.validateGroup poisoned late ∅ c.catalogRevision claimed = (accepted, completed))
    (haccepted : List.Forall₂ Prepared.Represents call.batches accepted)
    (hbatches : ∀ b ∈ call.batches, ∃ view ∈ views, b.HandedOver view) {tick : ℕ}
    {qs : List (Store.Prepared × Bytes)} (hready : Ready call.env db.state.root tick db.state.lsn
      (committed call.batches answers) qs) :
    (∀ p ∈ committed call.batches answers, ∀ table ∈ db.state.catalog, table ∈ p.1.catalog) ∧
      (∀ p ∈ committed call.batches answers, p.1.changesCatalog = false →
        p.1.catalog = db.state.catalog) ∧
      (committed call.batches answers).Pairwise fun p _ => p.1.changesCatalog = false := by
  obtain ⟨-, hspec, -, hapart⟩ := Coordinator.validateGroup_spec hvalid (by simp)
  have hview : ∀ p ∈ committed call.batches answers,
      ∃ view, p.1.HandedOver view ∧ view.catalog = db.state.catalog := by
    intro p hp
    obtain ⟨view, hview, hover⟩ := hbatches p.1 (mem_of_committed hp)
    obtain ⟨q, hq, hrep⟩ := exists_related haccepted (mem_of_committed hp)
    have hlt := hready.base_lt p hp
    have hrevision : c.catalogRevision ≤ p.1.baseSequence := by
      rcases hspec q hq with hle | hle
      · exact hrep.baseSequence ▸ hle
      · rw [hrep.baseSequence] at hle
        omega
    rw [hover.catalog.2.2] at hrevision
    exact ⟨view, hover, (hviews view hview).catalog hrevision⟩
  refine ⟨fun p hp table htable => ?_, fun p hp hchanges => ?_, ?_⟩
  · obtain ⟨view, hover, heq⟩ := hview p hp
    exact hover.catalog.1 table (heq ▸ htable)
  · obtain ⟨view, hover, heq⟩ := hview p hp
    exact (hover.catalog.2.1 hchanges).trans heq
  · have hpairwise := (Running.defines_of_represents haccepted hapart).sublist
      (committed_sublist call.batches answers)
    refine (List.pairwise_map.mp hpairwise).imp_of_mem fun {p q} hp hq hpq => ?_
    refine Bool.eq_false_iff.mpr fun hchanges => ?_
    exact absurd (hpq hchanges) (Nat.not_le.mpr (hready.base_lt q hq))

/-- **A group commit moves a database on.** -/
theorem Store.Database.moves_commit (hshared : db.sharedMode = true)
    (hrevision : c.catalogRevision ≤ db.state.lsn) (hviews : ∀ view ∈ views, db.Watches c view)
    (hvalid : c.validateGroup poisoned late ∅ c.catalogRevision claimed = (accepted, completed))
    (haccepted : List.Forall₂ Prepared.Represents call.batches accepted)
    (hbatches : ∀ b ∈ call.batches, ∃ view ∈ views, b.HandedOver view)
    (hcommit : call.run db = (answers, db')) :
    Database.Moves c (c.record (Running.answered accepted answers)) db db' := by
  have hbase : ∀ b ∈ call.batches, b.baseSequence ≤ db.state.lsn := by
    intro b hb
    obtain ⟨view, hview, hover⟩ := hbatches b hb
    rw [hover.catalog.2.2]
    exact (hviews view hview).behind
  rcases commitGroup_write hshared hbase hcommit with hdone | ⟨wal, e, rfl, hanswers⟩
  swap
  · have heq := Running.catalogRevision_refused (c := c) haccepted hanswers
    refine ⟨hshared, rfl, id, le_rfl, id, fun _ h => h, fun h => heq ▸ h, fun view h => ?_⟩
    exact ⟨h.behind, fun hle => h.catalog (heq ▸ hle)⟩
  rcases commitGroup_cases hshared hbase hdone with
    ⟨e, -, rfl, hanswers⟩ | ⟨-, tick, qs, hready, -, rfl, hanswers⟩
  · have heq := Running.catalogRevision_refused (c := c) haccepted hanswers
    refine ⟨hshared, rfl, id, le_rfl, id, fun _ h => h, fun h => heq ▸ h, fun view h => ?_⟩
    exact ⟨h.behind, fun hle => h.catalog (heq ▸ hle)⟩
  obtain ⟨hsubset, hsame, hlast⟩ :=
    Database.committed_current hviews hvalid haccepted hbatches hready
  obtain ⟨hsubset, hsame⟩ := hready.catalog hsubset hsame hlast
  obtain ⟨hroot, hlength, -, hbounded⟩ := hready.publishEach_spec rfl
  have hstate : (landAll qs db).state = (publishEach (qs.map Prod.fst) db).state := by
    rw [landAll_eq]
    rfl
  have hpublished : db.published = db.state →
      (landAll qs db).published = (landAll qs db).state := by
    intro heq
    rw [landAll_eq]
    change (if qs = [] then db.published else (publishEach (qs.map Prod.fst) db).state) =
      (publishEach (qs.map Prod.fst) db).state
    split
    · next hnil =>
      rw [hnil]
      exact heq
    · rfl
  have hmoved : (c.record (Running.answered accepted answers)).catalogRevision = c.catalogRevision ∧
        (landAll qs db).state.catalog = db.state.catalog ∨
      db.state.lsn < (c.record (Running.answered accepted answers)).catalogRevision ∧
        (c.record (Running.answered accepted answers)).catalogRevision ≤
          (landAll qs db).state.lsn := by
    rcases c.catalogRevision_record (Running.answered accepted answers) with
      ⟨heq, hnone⟩ | ⟨p, n, hp, hchanges, heq⟩
    · refine Or.inl ⟨heq, ?_⟩
      rw [hstate]
      refine hsame fun p hp => ?_
      obtain ⟨q, hrep, hq⟩ := (Running.mem_answered haccepted).2 p.1 (mem_committed.mp hp).1
      rw [← hrep.changesCatalog]
      exact hnone q p.2 hq
    · obtain ⟨b, -, hrep, hzip⟩ := (Running.mem_answered haccepted).1 p hp
      rw [hrep.changesCatalog] at hchanges
      have hne : b.isEmpty = false := by
        refine Bool.eq_false_iff.mpr fun hempty => ?_
        rw [b.changesCatalog_of_isEmpty hempty] at hchanges
        cases hchanges
      obtain ⟨hlt, hle⟩ := hready.sequence_mem (b, n) (mem_committed.mpr ⟨hzip, hne⟩)
      rw [heq, hstate, hlength]
      exact Or.inr ⟨hlt, hle⟩
  have hbehind : db.state.lsn ≤ (landAll qs db).state.lsn := by
    rw [hstate, hlength]
    exact Nat.le_add_right _ _
  refine ⟨?_, hstate ▸ hroot, hpublished, hbehind, hstate ▸ hbounded, hstate ▸ hsubset,
    fun hle => ?_,
    fun view hview => ⟨hview.behind.trans hbehind, fun hle => ?_⟩⟩
  · rw [landAll_eq]
    exact (publishEach_sharedMode _ db).trans hshared
  · rcases hmoved with ⟨heq, -⟩ | ⟨-, hle⟩
    · rw [heq]
      exact hle.trans hbehind
    · exact hle
  · rcases hmoved with ⟨heq, hcatalog⟩ | ⟨hlt, -⟩
    · rw [hcatalog]
      exact hview.catalog (heq ▸ hle)
    · exact absurd (hlt.trans_le hle) (Nat.not_lt.mpr hview.behind)

/-! ### What is in memory -/

/-- **How a group commit ends**: nothing is published, or a group that is bound to the root. -/
theorem Store.Database.commit_cases (hshared : db.sharedMode = true)
    (hbase : ∀ b ∈ call.batches, b.baseSequence ≤ db.state.lsn)
    (hcommit : call.run db = (answers, db')) :
    (∃ wal poisoned, db' = { db with wal, poisoned } ∧ committed call.batches answers = []) ∨
      ∃ tick qs,
        Ready call.env db.state.root tick db.state.lsn (committed call.batches answers) qs ∧
        db'.state = (publishEach (qs.map Prod.fst) db).state ∧
        db'.checkpointTail = (publishEach (qs.map Prod.fst) db).checkpointTail := by
  rcases commitGroup_write hshared hbase hcommit with hdone | ⟨wal, e, rfl, hanswers⟩
  swap
  · exact Or.inl ⟨wal, true, rfl, committed_refused hanswers⟩
  rcases commitGroup_cases hshared hbase hdone with
    ⟨e, -, rfl, hanswers⟩ | ⟨-, tick, qs, hready, -, rfl, -⟩
  · exact Or.inl ⟨db'.wal, db'.poisoned, rfl, committed_refused hanswers⟩
  · refine Or.inr ⟨tick, qs, hready, ?_, ?_⟩
    · rw [landAll_eq]
      rfl
    · rw [landAll_eq]
      rfl

/-- **What holds of entities in memory goes through a group commit.** -/
theorem Store.Database.Every.commit {P Q : ℕ × ℕ → EntityData → Prop} (h : db.Every P)
    (hshared : db.sharedMode = true) (hbase : ∀ b ∈ call.batches, b.baseSequence ≤ db.state.lsn)
    (hrebind : ∀ key data data' generation, Q key data →
      (data.rebind db.state.root generation key).result = .ok data' → P key data')
    (hseal : ∀ key data base n, P key data → P key (data.stamped base n).sealEvents)
    (hstaged : ∀ b ∈ call.batches, Store.Every Q b.staged)
    (hcommit : call.run db = (answers, db')) :
    db'.Every P := by
  rcases Database.commit_cases hshared hbase hcommit with
    ⟨wal, poisoned, rfl, -⟩ | ⟨tick, qs, hready, hstate, htail⟩
  · exact ⟨h.state, h.tail⟩
  · have hstaged' : ∀ p ∈ committed call.batches answers, Store.Every Q p.1.staged :=
      fun p hp => hstaged p.1 (mem_of_committed hp)
    exact ⟨hstate ▸ hready.every_state hrebind hseal hstaged' h.state,
      htail ▸ hready.every_tail hrebind hseal hstaged' h.tail⟩

section Rests

variable {R T : Checkpoint → Prop}
  (hwithin : ∀ source, R source → ∀ key, source.Has key → db.state.root.Has key)
  (hsame : ∀ source, R source →
    source.manifest.generation = db.state.root.manifest.generation → source = db.state.root)
  (hviews : ∀ view ∈ views, view.Rests R) (hshared : db.sharedMode = true)
  (hbase : ∀ b ∈ call.batches, b.baseSequence ≤ db.state.lsn)
  (hbatches : ∀ b ∈ call.batches, ∃ view ∈ views, b.HandedOver view)

/-- What is staged on views has its sources where they have them. -/
theorem Store.bound_of_views (hviews : ∀ view ∈ views, view.Rests R)
    (hbatches : ∀ b ∈ call.batches, ∃ view ∈ views, b.HandedOver view) :
    ∀ b ∈ call.batches, Bound R b.staged := by
  intro b hb
  obtain ⟨view, hview, hover⟩ := hbatches b hb
  exact hover.bound (hviews view hview).root (hviews view hview).overlay

include hwithin hsame hviews hshared hbase hbatches

/-- **A group commit** rests what it publishes on the current manifest. -/
theorem Store.Database.Rests.commit (h : db.Rests T) (hcommit : call.run db = (answers, db')) :
    db'.Rests T := by
  have hevery : db'.Every fun key data =>
      ∀ source ∈ data.disk, T source.root ∧ source.root.Has key := by
    refine Database.Every.commit (Q := fun key data => ∀ source ∈ data.disk,
      R source.root ∧ source.root.Has key) ⟨h.state.overlay, h.tail⟩ hshared hbase
      (fun key data data' generation hdata hrebind source hsource => ?_)
      (fun _ _ _ _ hdata => hdata) (bound_of_views hviews hbatches) hcommit
    obtain ⟨heq, hhas⟩ := EntityData.rebind_bound hwithin hsame hdata hrebind source hsource
    exact ⟨heq ▸ h.state.root, hhas⟩
  refine ⟨⟨?_, hevery.state⟩, hevery.tail⟩
  rcases Database.commit_cases hshared hbase hcommit with
    ⟨wal, poisoned, rfl, -⟩ | ⟨tick, qs, hready, hstate, -⟩
  · exact h.state.root
  · rw [hstate, (hready.publishEach_spec rfl).1]
    exact h.state.root

/-- What is kept for a checkpoint that is under way rests on it alone. -/
theorem Store.Database.commit_tail_bound
    (htail : ∀ tail ∈ db.checkpointTail, Bound (· = db.state.root) tail)
    (hcommit : call.run db = (answers, db')) :
    ∀ tail ∈ db'.checkpointTail, Bound (· = db.state.root) tail := by
  rcases Database.commit_cases hshared hbase hcommit with
    ⟨wal, poisoned, rfl, -⟩ | ⟨tick, qs, hready, -, htail'⟩
  · exact htail
  rw [htail']
  exact hready.every_tail
    (Q := fun key data => ∀ source ∈ data.disk, R source.root ∧ source.root.Has key)
    (fun key data data' generation => EntityData.rebind_bound hwithin hsame)
    (fun _ _ _ _ hdata => hdata)
    (fun p hp => bound_of_views hviews hbatches p.1 (mem_of_committed hp)) htail

end Rests

/-- **A group commit** leaves no entity without its table. -/
theorem Store.Database.Every.commit_ofTables (h : db.Every fun key _ => key.1 ∈ db.state.catalog)
    (hshared : db.sharedMode = true) (hviews : ∀ view ∈ views, db.Watches c view)
    (hvalid : c.validateGroup poisoned late ∅ c.catalogRevision claimed = (accepted, completed))
    (haccepted : List.Forall₂ Prepared.Represents call.batches accepted)
    (hbatches : ∀ b ∈ call.batches, ∃ view ∈ views, b.HandedOver view)
    (hcommit : call.run db = (answers, db')) :
    db'.Every fun key _ => key.1 ∈ db'.state.catalog := by
  have hbase : ∀ b ∈ call.batches, b.baseSequence ≤ db.state.lsn := by
    intro b hb
    obtain ⟨view, hview, hover⟩ := hbatches b hb
    rw [hover.catalog.2.2]
    exact (hviews view hview).behind
  rcases Database.commit_cases hshared hbase hcommit with
    ⟨wal, poisoned, rfl, -⟩ | ⟨tick, qs, hready, hstate, htail⟩
  · exact ⟨h.state, h.tail⟩
  obtain ⟨hsubset, hsame, hlast⟩ :=
    Database.committed_current hviews hvalid haccepted hbatches hready
  -- all of it is seen from the catalog at the end, which has the tables of all batches
  have hmore {entities : SortedMap (ℕ × ℕ) EntityData}
      (h : Store.Every (fun key _ => key.1 ∈ db.state.catalog) entities) :
      Store.Every (fun key _ => key.1 ∈ db'.state.catalog) entities := by
    rw [hstate]
    exact h.mono fun key _ hkey => (hready.catalog hsubset hsame hlast).1 key.1 hkey
  have hstaged : ∀ p ∈ committed call.batches answers,
      Store.Every (fun key _ => key.1 ∈ db'.state.catalog) p.1.staged := by
    intro p hp
    obtain ⟨view, -, hover⟩ := hbatches p.1 (mem_of_committed hp)
    rw [hstate]
    exact hover.ofTables.mono fun key _ hkey =>
      hready.subset_catalog hsubset hsame hlast p hp key.1 hkey
  have hstate' := hready.every_state (P := fun key _ => key.1 ∈ db'.state.catalog)
    (fun _ _ _ _ hkey _ => hkey) (fun _ _ _ _ hkey => hkey) hstaged (hmore h.state)
  have htail' := hready.every_tail (P := fun key _ => key.1 ∈ db'.state.catalog)
    (fun _ _ _ _ hkey _ => hkey) (fun _ _ _ _ hkey => hkey) hstaged
    fun tail htail => hmore (h.tail tail htail)
  exact ⟨hstate ▸ hstate', htail ▸ htail'⟩

/-- **What is committed behind a capture** is in the tail as it is in the view. -/
theorem Store.publishEach_tail {bs : List Store.Prepared} {db : Database}
    {tail older : SortedMap (ℕ × ℕ) EntityData} (htail : db.checkpointTail = some tail)
    (h : ∀ key : ℕ × ℕ, db.state.overlay[key]? = (tail[key]?).or older[key]?) :
    ∃ tail', (publishEach bs db).checkpointTail = some tail' ∧
      ∀ key : ℕ × ℕ, (publishEach bs db).state.overlay[key]? = (tail'[key]?).or older[key]? := by
  induction bs generalizing db tail with
  | nil => exact ⟨tail, htail, h⟩
  | cons b bs ih =>
    have hsealed : ((b.restamp (db.state.lsn + 1)).publishState (db.state.lsn + 1)
        db).checkpointTail =
          some (Prepared.sealOver (b.restamp (db.state.lsn + 1)).staged tail) := by
      change db.checkpointTail.map _ = _
      rw [htail, Option.map_some]
    refine ih hsealed fun key => ?_
    change (Prepared.sealOver (b.restamp (db.state.lsn + 1)).staged db.state.overlay)[key]? = _
    rw [getElem?_sealOver, getElem?_sealOver, h key, Option.or_assoc]

theorem Store.Database.commit_tail {tail older : SortedMap (ℕ × ℕ) EntityData}
    (hshared : db.sharedMode = true) (hbase : ∀ b ∈ call.batches, b.baseSequence ≤ db.state.lsn)
    (hcommit : call.run db = (answers, db')) (htail : db.checkpointTail = some tail)
    (h : ∀ key : ℕ × ℕ, db.state.overlay[key]? = (tail[key]?).or older[key]?) :
    ∃ tail', db'.checkpointTail = some tail' ∧
      ∀ key : ℕ × ℕ, db'.state.overlay[key]? = (tail'[key]?).or older[key]? := by
  rcases Database.commit_cases hshared hbase hcommit with
    ⟨wal, poisoned, rfl, -⟩ | ⟨tick, qs, -, hstate, htail'⟩
  · exact ⟨tail, htail, h⟩
  · rw [hstate, htail']
    exact publishEach_tail htail h

end Commit

end EveDB
