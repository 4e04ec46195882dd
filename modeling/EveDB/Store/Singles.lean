import EveDB.Store.Groups

/-!
# What a group commit does to the database

The members of a group that survive its preparation (`committed`) are written and published as
if each of them had been committed by itself (`Singly`). Both come to landing the batches one
after another (`landAll`): the preparation has settled everything that a batch depends on but
its base, which is the sequence the batches in front of it have left.
-/

namespace EveDB.Store

open Fallible

/-- The batches of a group that were committed, and their sequences. A batch without operations is
answered, but there is nothing to commit. -/
def committed (batches : List Prepared) (answers : List (Option (Result ℕ))) :
    List (Prepared × ℕ) :=
  (batches.zip answers).filterMap fun (batch, answer) =>
    match answer with
    | some (.ok sequence) => if batch.isEmpty then none else some (batch, sequence)
    | _ => none

/-- What has been committed are some of the batches, in their order. -/
theorem committed_sublist (batches : List Prepared) (answers : List (Option (Result ℕ))) :
    ((committed batches answers).map Prod.fst).Sublist batches := by
  induction batches generalizing answers with
  | nil => exact List.Sublist.refl _
  | cons b bs ih =>
    cases answers with
    | nil => exact List.nil_sublist _
    | cons a as =>
      rw [committed, List.zip_cons_cons, List.filterMap_cons]
      split
      · exact (ih as).cons b
      · next p hp =>
        have hfst : p.1 = b := by
          dsimp only at hp
          split at hp
          · split at hp
            · cases hp
            · cases hp
              rfl
          · cases hp
        rw [List.map_cons, hfst]
        exact (ih as).cons_cons b

/-- **Batches are committed one at a time**, each in some surroundings, and none is refused. -/
inductive Singly : List Prepared → List ℕ → Database → Database → Prop
  | nil (db : Database) : Singly [] [] db db
  | cons {batch : Prepared} {batches : List Prepared} {sequence : ℕ} {sequences : List ℕ}
      {db db₁ db' : Database} (env : Env) (checkpoint : Database → Result Unit × Database)
      (tick : ℕ)
      (head : batch.commit env checkpoint .done tick db = (some (.ok sequence), db₁))
      (rest : Singly batches sequences db₁ db') :
      Singly (batch :: batches) (sequence :: sequences) db db'

/-- Each element of a list has one that it is related to. -/
theorem exists_related {α β : Type} {R : α → β → Prop} {l : List α} {l' : List β}
    (h : List.Forall₂ R l l') {a : α} (ha : a ∈ l) : ∃ b ∈ l', R a b := by
  induction h with
  | nil => cases ha
  | @cons a' b l l' hab _ ih =>
    rcases List.mem_cons.mp ha with rfl | ha
    · exact ⟨b, List.mem_cons_self, hab⟩
    · obtain ⟨b', hb', hab'⟩ := ih ha
      exact ⟨b', List.mem_cons_of_mem b hb', hab'⟩

/-! ### Binding a batch -/

/-- A batch has been bound to a root. -/
def Prepared.Rebound (env : Env) (root : Checkpoint) (b b' : Prepared) : Prop :=
  ∃ tick tick', (b.rebind env root).run tick = (.ok b', tick')

/-- What two batches have to agree on to be published alike. -/
structure Prepared.Alike (b b' : Prepared) : Prop where
  baseSequence : b'.baseSequence = b.baseSequence
  catalog : b'.catalog = b.catalog
  staged : b'.staged = b.staged
  operations : b'.operations = b.operations
  deadline : b'.deadline = b.deadline

section Rebound

variable {env : Env} {root : Checkpoint}

/-- **Binding a batch** exchanges its staged entities for what the root makes of them. -/
theorem Prepared.Rebound.spec {b b' : Prepared} (h : b.Rebound env root b') :
    (rebindAll root b.rootGeneration b.staged.toList b.staged).result = .ok b'.staged ∧
      ({ b with staged := b'.staged } : Prepared).Alike b' := by
  obtain ⟨tick, tick', h⟩ := h
  unfold rebind Fallible.run at h
  dsimp only at h
  split at h
  · next staged account hrun =>
    cases h
    exact ⟨Guarded.result_of_run hrun, rfl, rfl, rfl, rfl, rfl⟩
  · cases h

/-- It does not depend on the surroundings. -/
theorem Prepared.Rebound.alike {env' : Env} {b b₁ b₂ : Prepared} (h₁ : b.Rebound env root b₁)
    (h₂ : b.Rebound env' root b₂) : b₁.Alike b₂ := by
  obtain ⟨hstaged₁, hbase₁, hcatalog₁, -, hoperations₁, hdeadline₁⟩ := h₁.spec
  obtain ⟨hstaged₂, hbase₂, hcatalog₂, -, hoperations₂, hdeadline₂⟩ := h₂.spec
  have hstaged : b₂.staged = b₁.staged := by
    rw [hstaged₁] at hstaged₂
    exact (Except.ok.inj hstaged₂).symm
  exact ⟨hbase₂.trans hbase₁.symm, hcatalog₂.trans hcatalog₁.symm, hstaged,
    hoperations₂.trans hoperations₁.symm, hdeadline₂.trans hdeadline₁.symm⟩

/-- The members of a group are its batches, bound to the root. -/
theorem rebindGroup_spec {batches : List Prepared} {ms : List Member} {tick tick' : ℕ}
    (h : (rebindGroup env root batches).run tick = (.ok ms, tick')) :
    ∃ bs, ms = bs.map (fun batch => ⟨batch, none⟩) ∧
      List.Forall₂ (Prepared.Rebound env root) batches bs := by
  induction batches generalizing tick ms tick' with
  | nil =>
    cases h
    exact ⟨[], rfl, .nil⟩
  | cons b batches ih =>
    obtain ⟨b', tick₁, hb, h⟩ := run_bind_eq_ok.mp h
    obtain ⟨ms', tick₂, hms, h⟩ := run_bind_eq_ok.mp h
    cases h
    obtain ⟨bs, rfl, hbs⟩ := ih hms
    exact ⟨b' :: bs, rfl, .cons ⟨tick, tick₁, hb⟩ hbs⟩

/-- Answers take time. -/
theorem Account.answer_later (request : Request) :
    Keeps (fun a a' : Account => a.ticks ≤ a'.ticks) (Account.answer env request) := by
  intro a
  cases request with
  | scratch bytes | memory bytes | decoded bytes | charge bytes => exact Nat.le_succ a.ticks

/-- So does binding a batch. -/
theorem Prepared.le_rebind (b : Prepared) : Keeps (· ≤ ·) (b.rebind env root) := by
  intro tick
  have hlater : (⟨b.reservation, tick⟩ : Account).ticks ≤ _ :=
    Guarded.keeps_run (P := fun a a' : Account => a.ticks ≤ a'.ticks) (fun _ => le_rfl)
      (fun _ _ _ => le_trans) (@Account.answer_later env)
      (rebindAll root b.rootGeneration b.staged.toList b.staged) ⟨b.reservation, tick⟩
  unfold rebind Fallible.run at hlater ⊢
  dsimp only
  split
  · next hrun =>
    rw [hrun] at hlater
    exact hlater
  · next hrun =>
    rw [hrun] at hlater
    exact hlater

/-- **Why a batch cannot be bound**: it is refused what it asks for, or the root cannot be read. -/
theorem Prepared.rebind_error {b : Prepared} {tick tick' : ℕ} {e : Error}
    (h : (b.rebind env root).run tick = (.error e, tick')) :
    ((Guarded.askAll (Account.answer env)
      (rebindAll root b.rootGeneration b.staged.toList b.staged).requests).run
        ⟨b.reservation, tick⟩).1 = .error e ∨
    (rebindAll root b.rootGeneration b.staged.toList b.staged).result = .error e := by
  unfold rebind Fallible.run at h
  dsimp only at h
  split at h
  · cases h
  · next hrun =>
    cases h
    exact Guarded.error_of_run hrun

/-- A group cannot be bound when one of its batches cannot. -/
theorem rebindGroup_error {batches : List Prepared} {tick tick' : ℕ} {e : Error}
    (h : (rebindGroup env root batches).run tick = (.error e, tick')) :
    ∃ b ∈ batches, ∃ i j, tick ≤ i ∧ (b.rebind env root).run i = (.error e, j) := by
  induction batches generalizing tick with
  | nil => cases h
  | cons b batches ih =>
    rw [rebindGroup, run_bind] at h
    rcases hb : (b.rebind env root).run tick with ⟨e' | b', tick₁⟩
    · rw [hb] at h
      cases h
      exact ⟨b, List.mem_cons_self, tick, _, le_rfl, hb⟩
    · rw [hb] at h
      dsimp only at h
      rw [run_bind] at h
      have hlater : tick ≤ tick₁ := b.le_rebind.of_run hb
      rcases hms : (rebindGroup env root batches).run tick₁ with ⟨e' | ms, tick₂⟩
      · rw [hms] at h
        cases h
        obtain ⟨b', hb', i, j, hi, hrun⟩ := ih hms
        exact ⟨b', List.mem_cons_of_mem b hb', i, j, hlater.trans hi, hrun⟩
      · rw [hms] at h
        cases h

end Rebound

/-! ### Surroundings in which nothing is refused -/

section Patient

variable (env : Env)

/-- Surroundings without limits, where time stands still. -/
def Env.patient (tick : ℕ) : Env where
  limits :=
    { env.limits with
      maxTransactionDecodedBytes := maxU64, maxResidentDecodedWriteBytes := maxU64 }
  recovering := true
  usage _ := ⟨0, 0, 0, 0, 0⟩
  poisoned _ := false
  now _ := env.now tick
  poisoned_mono _ h := h
  now_mono _ := le_rfl

variable {env}

/-- What is granted somewhere is granted there. -/
theorem Account.answer_patient (tick : ℕ) (request : Request) :
    Simulates (fun a a' : Account => a'.reservation = a.reservation) Eq
      (Account.answer env request) (Account.answer (env.patient tick) request) := by
  intro a a' u a₁ hreservation h
  cases request with
  | scratch bytes | memory bytes | decoded bytes =>
    obtain ⟨-, rfl⟩ := Prod.ext_iff.mp h
    exact ⟨u, _, rfl, rfl, hreservation⟩
  | charge bytes =>
    obtain ⟨hresult, rfl⟩ := Prod.ext_iff.mp h
    obtain ⟨_, htransaction, hresident⟩ := bind_eq_ok.mp hresult
    have hgrant {used limit : ℕ} {resource : String}
        (h : used + bytes ≤ maxU64 ∧ used + bytes ≤ limit) :
        check resource used bytes maxU64 = .ok () := check_eq_ok.mpr ⟨h.1, h.1⟩
    have hzero : check "resident decoded write bytes" 0 bytes maxU64 = .ok () := by
      have hle := (check_eq_ok.mp hresident).1
      exact check_eq_ok.mpr ⟨by omega, by omega⟩
    refine ⟨u, _, Prod.ext ?_ rfl, rfl, ?_⟩
    · change (do
        check "transaction decoded bytes" a'.reservation.decodedBytes bytes maxU64
        check "resident decoded write bytes" 0 bytes maxU64) = _
      rw [hreservation, hgrant (check_eq_ok.mp htransaction)]
      exact hzero
    · change Reservation.mk a'.reservation.bytes (a'.reservation.decodedBytes + bytes) =
        Reservation.mk a.reservation.bytes (a.reservation.decodedBytes + bytes)
      rw [hreservation]

/-- **A batch that could be bound can be bound there**, with the same result. -/
theorem Prepared.Rebound.patient {root : Checkpoint} {b b' : Prepared} (h : b.Rebound env root b')
    (tick₀ tick : ℕ) : ∃ tick', (b.rebind (env.patient tick₀) root).run tick = (.ok b', tick') := by
  obtain ⟨tick₁, tick₂, h⟩ := h
  unfold rebind Fallible.run at h ⊢
  dsimp only at h ⊢
  split at h
  · next staged account hrun =>
    cases h
    obtain ⟨_, account', hrun', rfl, hreservation⟩ :=
      Guarded.simulates_run (Account.answer_patient tick₀) _ ⟨b.reservation, tick₁⟩
        ⟨b.reservation, tick⟩ _ _ rfl hrun
    have hrun' : Fallible.run _ _ = _ := hrun'
    unfold Fallible.run at hrun'
    rw [hrun']
    dsimp only
    rw [hreservation]
    exact ⟨_, rfl⟩
  · cases h

end Patient

/-! ### Landing -/

section Landing

/-- Publishes batches one after another, and nothing else. -/
def publishEach : List Prepared → Database → Database
  | [], db => db
  | b :: bs, db =>
    publishEach bs ((b.restamp (db.state.lsn + 1)).publishState (db.state.lsn + 1) db)

/-- A batch lands: its frame is appended to the log, and it is published. -/
def Prepared.land (batch : Prepared) (frame : Bytes) (db : Database) : Database :=
  let db' := (batch.restamp (db.state.lsn + 1)).publishState (db.state.lsn + 1) db
  { db' with
    wal := db.wal ++ frame, walBytes := wrappingAdd db.walBytes frame.length
    published := db'.state }

/-- Lands batches with their frames. -/
def landAll : List (Prepared × Bytes) → Database → Database
  | [], db => db
  | (b, frame) :: rest, db => landAll rest (b.land frame db)

/-- A database with another log. -/
def Database.logged (wal : Bytes) (walBytes : ℕ) (published : ReadState) (db : Database) :
    Database :=
  { db with wal, walBytes, published }

/-- Publishing a batch depends on the log no more than it changes it. -/
theorem publishEach_logged (bs : List Prepared) (wal : Bytes) (walBytes : ℕ)
    (published : ReadState) (db : Database) :
    publishEach bs (db.logged wal walBytes published) =
      (publishEach bs db).logged wal walBytes published := by
  induction bs generalizing db with
  | nil => rfl
  | cons b bs ih => exact ih ((b.restamp (db.state.lsn + 1)).publishState (db.state.lsn + 1) db)

/-- **Landing batches one after another** is publishing them, writing all frames, and handing the
last state to the readers. -/
theorem landAll_eq (qs : List (Prepared × Bytes)) (db : Database) :
    landAll qs db = (publishEach (qs.map Prod.fst) db).logged
      (db.wal ++ (qs.map Prod.snd).flatten)
      (if qs = [] then db.walBytes else
        wrappingAdd db.walBytes ((qs.map Prod.snd).map List.length).sum)
      (if qs = [] then db.published else (publishEach (qs.map Prod.fst) db).state) := by
  induction qs generalizing db with
  | nil => simp [landAll, publishEach, Database.logged]
  | cons q qs ih =>
    obtain ⟨b, frame⟩ := q
    set db₁ := (b.restamp (db.state.lsn + 1)).publishState (db.state.lsn + 1) db with hdb₁
    have hland : b.land frame db =
        db₁.logged (db.wal ++ frame) (wrappingAdd db.walBytes frame.length) db₁.state := rfl
    rw [landAll, ih, hland, publishEach_logged]
    have heach : publishEach (((b, frame) :: qs).map Prod.fst) db =
        publishEach (qs.map Prod.fst) db₁ := rfl
    rw [heach, if_neg (List.cons_ne_nil _ _), if_neg (List.cons_ne_nil _ _)]
    simp only [Database.logged, List.map_cons, List.flatten_cons, List.append_assoc, List.sum_cons]
    split
    · next h =>
      rw [h]
      rfl
    · rw [wrappingAdd_wrappingAdd]

/-- A batch that agrees on everything that is published lands alike. -/
theorem Prepared.Alike.land {b b' : Prepared} (h : b.Alike b') (frame : Bytes) (db : Database) :
    b'.land frame db = b.land frame db := by
  obtain ⟨hbase, hcatalog, hstaged, -, -⟩ := h
  unfold Prepared.land publishState publishView restamp
  rw [hbase, hcatalog, hstaged]

end Landing

/-! ### What becomes of a group -/

section Groups

variable (env : Env) (root : Checkpoint)

/-- **When the preparation of a group ends**, if the database is open. -/
def preparationEnd (lsn tick : ℕ) (batches : List Prepared) : ℕ :=
  match (rebindGroup env root batches).run (tick + 1) with
  | (.error _, tick) => tick
  | (.ok ms, tick) => roundsEnd env lsn (ms.length + 1) tick ms

/-- A batch is answered without being committed: it is late, or there is nothing to commit. -/
def Passed (last : ℕ) (b : Prepared) (answer : Option (Result ℕ)) : Prop :=
  (b.isEmpty = true ∧ answer = some (.ok b.baseSequence)) ∨
    (answer = some (.error .deadlineExceeded) ∧ expired b.deadline (env.now last) = true)

/-- **Batches that are ready to land behind `lsn`**: in time at `tick`, bound to the root, and with
their frames. -/
inductive Ready (tick : ℕ) : ℕ → List (Prepared × ℕ) → List (Prepared × Bytes) → Prop
  | nil (lsn : ℕ) : Ready tick lsn [] []
  | cons {lsn : ℕ} {b b' : Prepared} {frame : Bytes} {ps : List (Prepared × ℕ)}
      {qs : List (Prepared × Bytes)} (hne : b.isEmpty = false) (hbase : b.baseSequence ≤ lsn)
      (hawake : expired b.deadline (env.now tick) = false) (hlsn : lsn + 1 ≤ maxU64)
      (hframe : Frame.encode 2 (lsn + 1) (encodeOps b.operations) = .ok frame)
      (hrebound : b.Rebound env root b') (rest : Ready tick (lsn + 1) ps qs) :
      Ready tick lsn ((b, lsn + 1) :: ps) ((b', frame) :: qs)

/-- **Why a group is refused** as a whole: the database is closed; the root cannot be read where a
batch is bound to it; a batch is refused memory; there are no sequences left; a batch does not fit
a frame; or the frames of those that are in time would not fit the log. -/
inductive Refusal (tick : ℕ) (batches : List Prepared) (db : Database) : Error → Prop
  | closed (h : db.poisoned = true ∨ env.poisoned tick = true) :
    Refusal tick batches db .needsRecovery
  | storage {b : Prepared} {e : Error} (hb : b ∈ batches)
    (h : (rebindAll db.state.root b.rootGeneration b.staged.toList b.staged).result = .error e) :
    Refusal tick batches db e
  | admission {b : Prepared} {e : Error} {i : ℕ} (hb : b ∈ batches) (hi : tick < i)
    (h : ((Guarded.askAll (Account.answer env)
      (rebindAll db.state.root b.rootGeneration b.staged.toList b.staged).requests).run
        ⟨b.reservation, i⟩).1 = .error e) :
    Refusal tick batches db e
  | stamps {e : Error} (h : Unstampable db.state.lsn batches e) : Refusal tick batches db e
  | log {i : ℕ} {ps : List (Prepared × ℕ)} {qs : List (Prepared × Bytes)}
    (hps : (ps.map Prod.fst).Sublist batches)
    (hready : Ready env db.state.root i db.state.lsn ps qs)
    (h : db.options.limits.maxUncheckpointedWalBytes <
      saturatingAdd db.walBytes ((qs.map Prod.snd).map List.length).sum) :
    Refusal tick batches db
      (.limitExceeded "uncheckpointed WAL bytes" db.options.limits.maxUncheckpointedWalBytes)

variable {env root}

theorem committed_cons_ok {b : Prepared} (h : b.isEmpty = false) (n : ℕ) (bs : List Prepared)
    (answers : List (Option (Result ℕ))) :
    committed (b :: bs) (some (.ok n) :: answers) = (b, n) :: committed bs answers :=
  List.filterMap_cons_some (if_neg (by rw [h]; exact Bool.false_ne_true))

theorem committed_cons_passed {last : ℕ} {b : Prepared} {answer : Option (Result ℕ)}
    (h : Passed env last b answer) (bs : List Prepared) (answers : List (Option (Result ℕ))) :
    committed (b :: bs) (answer :: answers) = committed bs answers := by
  rcases h with ⟨hempty, rfl⟩ | ⟨rfl, -⟩
  · exact List.filterMap_cons_none (if_pos hempty)
  · exact List.filterMap_cons_none rfl

theorem publishAll_cons_active {m : Member} (h : m.active = true) (lsn : ℕ) (ms : List Member)
    (db : Database) :
    publishAll lsn (m :: ms) db =
      ({ m with answer := some (.ok (lsn + 1)) } ::
        (publishAll (lsn + 1) ms (m.batch.publishState (lsn + 1) db)).1,
        (publishAll (lsn + 1) ms (m.batch.publishState (lsn + 1) db)).2) := by
  rw [publishAll, if_pos h]

theorem publishAll_cons_answered {m : Member} (h : m.active = false) (lsn : ℕ) (ms : List Member)
    (db : Database) :
    publishAll lsn (m :: ms) db = (m :: (publishAll lsn ms db).1, (publishAll lsn ms db).2) := by
  rw [publishAll, if_neg (by rw [h]; exact Bool.false_ne_true)]

/-- A member that has its answer has been passed. -/
theorem Tracks.passed {last : ℕ} {b b' : Prepared} {m : Member} (h : Tracks env last b' m)
    (hbound : b.Rebound env root b') (hm : m.active = false) : Passed env last b m.answer := by
  obtain ⟨-, hbase, -, -, hoperations, hdeadline⟩ := hbound.spec
  cases h with
  | active => cases hm
  | late hlate => exact Or.inr ⟨rfl, by rwa [hdeadline] at hlate⟩
  | empty hempty =>
    refine Or.inl ⟨?_, congrArg (fun n => some (Except.ok n)) hbase⟩
    rw [Prepared.isEmpty, hoperations] at hempty
    exact hempty

/-- **Publishing the members that are left** publishes their batches one after another, and the
frames are theirs. -/
theorem Written.publishes {last tick lsn : ℕ} {batches bs : List Prepared} {ms : List Member}
    {frames : List Bytes} {db : Database} (h : Written env last tick lsn bs ms frames)
    (hbound : List.Forall₂ (Prepared.Rebound env root) batches bs)
    (hbase : ∀ b ∈ batches, b.baseSequence ≤ lsn) (hlsn : db.state.lsn = lsn) :
    ∃ qs, Ready env root tick lsn (committed batches ((publishAll lsn ms db).1.map Member.answer))
        qs ∧
      qs.map Prod.snd = frames ∧ (publishAll lsn ms db).2 = publishEach (qs.map Prod.fst) db ∧
      List.Forall₂ (fun b a => Passed env last b a ∨ ∃ n, a = some (.ok n)) batches
        ((publishAll lsn ms db).1.map Member.answer) := by
  induction h generalizing batches db with
  | nil =>
    cases hbound
    exact ⟨[], .nil _, rfl, rfl, .nil⟩
  | @active lsn b' bs ms frame frames hne hawake hmax hframe rest ih =>
    cases hbound with
    | @cons b _ batches _ hb hbatches =>
    obtain ⟨hle, hbase⟩ := List.forall_mem_cons.mp hbase
    obtain ⟨qs, hready, hframes, hstate, hanswers⟩ :=
      ih hbatches (fun b hb => (hbase b hb).trans (Nat.le_succ _))
        (show (((b'.restamp (lsn + 1)).publishState (lsn + 1) db).state.lsn = lsn + 1) from rfl)
    obtain ⟨-, -, -, -, hoperations, hdeadline⟩ := hb.spec
    have hne' : b.isEmpty = false := by
      rw [Prepared.isEmpty, hoperations] at hne
      exact hne
    rw [publishAll_cons_active rfl, List.map_cons, committed_cons_ok hne']
    refine ⟨(b', frame) :: qs, .cons hne' hle ?_ hmax ?_ hb hready, ?_, ?_,
      .cons (Or.inr ⟨_, rfl⟩) hanswers⟩
    · rwa [hdeadline] at hawake
    · rwa [hoperations] at hframe
    · rw [List.map_cons, hframes]
    · rw [hstate, List.map_cons, publishEach, hlsn]
  | @answered lsn b' m bs ms frames hm htracks rest ih =>
    cases hbound with
    | @cons b _ batches _ hb hbatches =>
    obtain ⟨-, hbase⟩ := List.forall_mem_cons.mp hbase
    obtain ⟨qs, hready, hframes, hstate, hanswers⟩ := ih hbatches hbase hlsn
    have hpassed := htracks.passed hb hm
    rw [publishAll_cons_answered hm, List.map_cons, committed_cons_passed hpassed]
    exact ⟨qs, hready, hframes, hstate, .cons (Or.inl hpassed) hanswers⟩

/-- Binding batches moves no base. -/
theorem rebound_base {lsn : ℕ} {batches bs : List Prepared}
    (hbound : List.Forall₂ (Prepared.Rebound env root) batches bs)
    (hbase : ∀ b ∈ batches, b.baseSequence ≤ lsn) : ∀ b ∈ bs, b.baseSequence ≤ lsn := by
  induction hbound with
  | nil => exact hbase
  | cons hb _ ih =>
    obtain ⟨hle, hbase⟩ := List.forall_mem_cons.mp hbase
    exact List.forall_mem_cons.mpr ⟨hb.spec.2.baseSequence.trans_le hle, ih hbase⟩

/-- Bound batches cannot be stamped for the same reasons. -/
theorem Unstampable.of_rebound {lsn : ℕ} {batches bs : List Prepared} {e : Error}
    (h : Unstampable lsn bs e) (hbound : List.Forall₂ (Prepared.Rebound env root) batches bs) :
    Unstampable lsn batches e := by
  cases h with
  | exhausted h => exact .exhausted (hbound.length_eq ▸ h)
  | @oversized b' hb' h =>
    obtain ⟨b, hb, hrebound⟩ : ∃ b ∈ batches, b.Rebound env root b' :=
      exists_related hbound.flip hb'
    have hoperations := hrebound.spec.2.operations
    exact .oversized hb (by rwa [hoperations] at h)

/-- Without frames there is nobody to publish. -/
theorem Written.publishAll_nil {last tick lsn : ℕ} {bs : List Prepared} {ms : List Member}
    {frames : List Bytes} (h : Written env last tick lsn bs ms frames) (hnil : frames = [])
    (db : Database) : publishAll lsn ms db = (ms, db) := by
  induction h with
  | nil => rfl
  | active => cases hnil
  | answered hm htracks rest ih => rw [publishAll_cons_answered hm, ih hnil]

/-- What refused members are answered. -/
theorem refuse_passed {last : ℕ} (e : Error) {batches bs : List Prepared} {ms : List Member}
    (hbound : List.Forall₂ (Prepared.Rebound env root) batches bs)
    (h : List.Forall₂ (Tracks env last) bs ms) :
    List.Forall₂ (fun b a => Passed env last b a ∨ a = some (.error e)) batches
      ((refuse e ms).map Member.answer) := by
  induction h generalizing batches with
  | nil =>
    cases hbound
    exact .nil
  | @cons b' m bs ms hbm _ ih =>
    cases hbound with
    | cons hb hbatches =>
    refine .cons ?_ (ih hbatches)
    dsimp only
    cases hm : m.active with
    | true => exact Or.inr rfl
    | false => exact Or.inl (hbm.passed hb hm)

/-- So are all of them when the preparation does not get as far as the loop. -/
theorem refuse_fresh (last : ℕ) (e : Error) (batches : List Prepared) :
    List.Forall₂ (fun b a => Passed env last b a ∨ a = some (.error e)) batches
      ((refuse e (batches.map fun batch => ⟨batch, none⟩)).map Member.answer) := by
  induction batches with
  | nil => exact .nil
  | cons b batches ih => exact .cons (Or.inr rfl) ih

/-- **What a group commit comes to** in a shared database whose log is written without failure:
either the group is refused, nothing happens, and the members that were not passed get the same
error; or they land one after another. -/
theorem commitGroup_cases {checkpoint : Database → Result Unit × Database} {tick : ℕ}
    {batches : List Prepared} {db db' : Database} {answers : List (Option (Result ℕ))}
    (hshared : db.sharedMode = true) (hbase : ∀ b ∈ batches, b.baseSequence ≤ db.state.lsn)
    (h : commitGroup env checkpoint .done tick batches db = (answers, db')) :
    (∃ e, Refusal env tick batches db e ∧ db' = db ∧
      List.Forall₂ (fun b a =>
        Passed env (preparationEnd env db.state.root db.state.lsn tick batches) b a ∨
          a = some (.error e)) batches answers) ∨
    (db.poisoned = false ∧ ∃ tick₀ qs,
      Ready env db.state.root tick₀ db.state.lsn (committed batches answers) qs ∧
      saturatingAdd db.walBytes ((qs.map Prod.snd).map List.length).sum ≤
        db.options.limits.maxUncheckpointedWalBytes ∧
      db' = landAll qs db ∧
      List.Forall₂ (fun b a =>
        Passed env (preparationEnd env db.state.root db.state.lsn tick batches) b a ∨
          ∃ n, a = some (.ok n)) batches answers) := by
  unfold commitGroup at h
  dsimp only at h
  split at h
  · next hclosed =>
    cases h
    exact Or.inl ⟨_, .closed hclosed, rfl, refuse_fresh _ _ batches⟩
  · next hopen =>
  rw [if_neg (by rw [hshared]; exact fun hdue => hdue.1 rfl)] at h
  dsimp only at h
  split at h
  · next e tick₀ hunbound =>
    cases h
    obtain ⟨b, hb, i, j, hi, hrun⟩ := rebindGroup_error hunbound
    refine Or.inl ⟨e, ?_, rfl, refuse_fresh _ _ batches⟩
    rcases b.rebind_error hrun with hrefused | hunread
    · exact .admission hb hi hrefused
    · exact .storage hb hunread
  · next ms tick₀ hms =>
  obtain ⟨bs, rfl, hbound⟩ := rebindGroup_spec hms
  have hbs := rebound_base hbound hbase
  have hlast : roundsEnd env db.state.lsn ((bs.map fun batch => Member.mk batch none).length + 1)
      tick₀ (bs.map fun batch => ⟨batch, none⟩) ≤
        preparationEnd env db.state.root db.state.lsn tick batches := by
    rw [preparationEnd, hms]
  have hfresh : List.Forall₂
      (Tracks env (preparationEnd env db.state.root db.state.lsn tick batches)) bs
        (bs.map fun batch => ⟨batch, none⟩) :=
    List.forall₂_map_right_iff.mpr
      (List.forall₂_same.mpr fun b _ => .active (Prepared.SameButStamps.refl b))
  split at h
  · next hnone =>
    have hends : (none : Option (Result (List Bytes) × List Member)).isSome = true :=
      hnone ▸ rounds_ends _
    cases hends
  · next e ms' hrounds =>
    cases h
    obtain ⟨htracks, -, herror⟩ := rounds_spec le_rfl hbs hlast hfresh hrounds
    exact Or.inl ⟨e, .stamps ((herror e rfl).of_rebound hbound), rfl,
      refuse_passed e hbound htracks⟩
  · next frames ms' hrounds =>
  obtain ⟨htracks, hwritten, -⟩ := rounds_spec le_rfl hbs hlast hfresh hrounds
  have hwritten := hwritten frames rfl
  unfold writeGroup at h
  dsimp only at h
  split at h
  · next hlimit =>
    cases h
    obtain ⟨qs, hready, hframes, -⟩ := hwritten.publishes hbound hbase rfl
    refine Or.inl ⟨_, .log (committed_sublist batches _) hready ?_, rfl,
      refuse_passed _ hbound htracks⟩
    rwa [hframes]
  · next hlimit =>
  have hpoisoned : db.poisoned = false := Bool.eq_false_iff.mpr fun hp => hopen (Or.inl hp)
  refine Or.inr ⟨hpoisoned, tick₀, ?_⟩
  split at h
  · next hnil =>
    obtain ⟨qs, hready, hframes, hstate, hanswers⟩ := hwritten.publishes hbound hbase rfl
    rw [List.isEmpty_iff] at hnil
    rw [hwritten.publishAll_nil hnil] at hready hanswers
    cases h
    rw [hnil, List.map_eq_nil_iff] at hframes
    subst hframes
    exact ⟨[], hready, by rw [hnil] at hlimit; exact Nat.le_of_not_lt hlimit, rfl, hanswers⟩
  · next hne =>
    have hlogged : (db.logged (db.wal ++ frames.flatten)
        (wrappingAdd db.walBytes (frames.map List.length).sum) db.published).state.lsn =
          db.state.lsn := rfl
    obtain ⟨qs, hready, hframes, hstate, hanswers⟩ := hwritten.publishes hbound hbase hlogged
    cases h
    refine ⟨qs, hready, by rw [hframes]; exact Nat.le_of_not_lt hlimit, ?_, hanswers⟩
    have hqs : qs ≠ [] := by
      rintro rfl
      exact hne (hframes ▸ rfl)
    rw [landAll_eq, hframes, if_neg hqs, if_neg hqs]
    rw [publishEach_logged] at hstate
    exact congrArg (fun d : Database => { d with published := d.state }) hstate

/-- **A single commit that succeeds** lands its batch. -/
theorem commit_ok {checkpoint : Database → Result Unit × Database} {tick n : ℕ} {b : Prepared}
    {db db' : Database} (hshared : db.sharedMode = true) (hbase : b.baseSequence ≤ db.state.lsn)
    (hne : b.isEmpty = false)
    (h : b.commit env checkpoint .done tick db = (some (.ok n), db')) :
    n = db.state.lsn + 1 ∧ ∃ b' frame, b.Rebound env db.state.root b' ∧
      Frame.encode 2 n (encodeOps b.operations) = .ok frame ∧ db' = b'.land frame db := by
  unfold Prepared.commit at h
  rcases hgroup : commitGroup env checkpoint .done tick [b] db with ⟨answers, db₁⟩
  rw [hgroup] at h
  obtain ⟨hanswer, rfl⟩ := Prod.ext_iff.mp h
  rcases commitGroup_cases hshared (List.forall_mem_singleton.mpr hbase) hgroup with
    ⟨e, -, -, hanswers⟩ | ⟨-, tick₀, qs, hready, -, hland, hanswers⟩
  · obtain ⟨a, rest, ha, hrest, rfl⟩ := List.forall₂_cons_left_iff.mp hanswers
    cases hrest
    obtain rfl : a = some (.ok n) := hanswer
    rcases ha with (⟨hempty, -⟩ | ⟨heq, -⟩) | heq
    · rw [hne] at hempty
      cases hempty
    · cases heq
    · cases heq
  · obtain ⟨a, rest, -, hrest, rfl⟩ := List.forall₂_cons_left_iff.mp hanswers
    cases hrest
    obtain rfl : a = some (.ok n) := hanswer
    rw [committed_cons_ok hne] at hready
    cases hready with
    | cons _ _ _ _ hframe hrebound rest =>
    cases rest
    exact ⟨rfl, _, _, hrebound, hframe, hland⟩

/-- **A batch that is ready lands** when it is committed by itself with patience. -/
theorem commit_patient (checkpoint : Database → Result Unit × Database) (tick₀ tick : ℕ)
    {b b' : Prepared} {frame : Bytes} {db : Database} (hshared : db.sharedMode = true)
    (hpoisoned : db.poisoned = false) (hne : b.isEmpty = false)
    (hawake : expired b.deadline (env.now tick₀) = false) (hlsn : db.state.lsn + 1 ≤ maxU64)
    (hframe : Frame.encode 2 (db.state.lsn + 1) (encodeOps b.operations) = .ok frame)
    (hrebound : b.Rebound env db.state.root b')
    (hlimit : saturatingAdd db.walBytes frame.length ≤
      db.options.limits.maxUncheckpointedWalBytes) :
    b.commit (env.patient tick₀) checkpoint .done tick db =
      (some (.ok (db.state.lsn + 1)), b'.land frame db) := by
  obtain ⟨tick₁, hbind⟩ := hrebound.patient tick₀ (tick + 1)
  obtain ⟨-, -, -, -, hoperations, hdeadline⟩ := hrebound.spec
  have hgroup : (rebindGroup (env.patient tick₀) db.state.root [b]).run (tick + 1) =
      (.ok [⟨b', none⟩], tick₁) :=
    run_bind_eq_ok.mpr ⟨b', tick₁, hbind, rfl⟩
  have hactive (batch : Prepared) : Member.active ⟨batch, none⟩ = true := rfl
  have hverdict : verdict (env.patient tick₀) tick₁ b' = none := by
    have hlate : expired b'.deadline ((env.patient tick₀).now tick₁) = false := by
      rw [hdeadline]
      exact hawake
    have hempty : b'.isEmpty = false := by
      rw [Prepared.isEmpty, hoperations]
      exact hne
    rw [verdict, hlate, hempty, if_neg Bool.false_ne_true, if_neg Bool.false_ne_true]
  have hstamp : stamp db.state.lsn 0 [⟨b', none⟩] =
      .ok ([⟨b'.restamp (db.state.lsn + 1), none⟩], [frame]) := by
    have hframe' : Frame.encode 2 (db.state.lsn + 1)
        (encodeOps (b'.restamp (db.state.lsn + 1)).operations) = .ok frame := by
      change Frame.encode 2 (db.state.lsn + 1) (encodeOps b'.operations) = _
      rw [hoperations]
      exact hframe
    rw [stamp, if_pos (hactive b'), checkedAdd_eq_some.mpr ⟨rfl, hlsn⟩]
    dsimp only
    rw [hframe']
    rfl
  have htime (tick : ℕ) : inTime (env.patient tick₀) tick
      [⟨b'.restamp (db.state.lsn + 1), none⟩] = (true, tick + 1) := by
    rw [inTime, if_pos (hactive _), if_neg]
    · rfl
    · change ¬ expired b'.deadline (env.now tick₀) = true
      rw [hdeadline, hawake]
      exact Bool.false_ne_true
  have hrounds : rounds (env.patient tick₀) db.state.lsn 2 tick₁ [⟨b', none⟩] =
      some (.ok [frame], [⟨b'.restamp (db.state.lsn + 1), none⟩]) := by
    rw [rounds, settle_cons_active rfl, hverdict]
    dsimp only [settle]
    rw [hstamp]
    dsimp only
    rw [htime]
  have hsum : ([frame].map List.length).sum = frame.length := Nat.add_zero _
  unfold Prepared.commit commitGroup
  rw [if_neg (by rw [hpoisoned]; exact fun h => h.elim Bool.false_ne_true Bool.false_ne_true)]
  dsimp only
  rw [if_neg (by rw [hshared]; exact fun hdue => hdue.1 rfl)]
  dsimp only
  rw [hgroup]
  dsimp only [List.length_singleton]
  rw [hrounds]
  dsimp only [writeGroup]
  rw [hsum, if_neg (Nat.not_lt.mpr hlimit), if_neg (by simp)]
  rw [publishAll_cons_active rfl]
  simp only [WalWrite.done, List.flatten_cons, List.flatten_nil, List.append_nil]
  rfl

/-- **Batches that are ready get consecutive sequences.** -/
theorem Ready.sequences {tick lsn : ℕ} {ps : List (Prepared × ℕ)} {qs : List (Prepared × Bytes)}
    (h : Ready env root tick lsn ps qs) : ps.map Prod.snd = List.range' (lsn + 1) ps.length := by
  induction h with
  | nil => rfl
  | cons _ _ _ _ _ _ _ ih =>
    rw [List.map_cons, ih, List.length_cons, List.range'_succ]

/-- **Committing batches that are ready one at a time** lands them one after another, and there is
a way to do it. -/
theorem Ready.singly_iff {tick lsn : ℕ} {ps : List (Prepared × ℕ)} {qs : List (Prepared × Bytes)}
    {db db' : Database} {sequences : List ℕ} (h : Ready env root tick lsn ps qs)
    (hshared : db.sharedMode = true) (hpoisoned : db.poisoned = false)
    (hroot : db.state.root = root) (hlsn : db.state.lsn = lsn)
    (hlimit : saturatingAdd db.walBytes ((qs.map Prod.snd).map List.length).sum ≤
      db.options.limits.maxUncheckpointedWalBytes) :
    Singly (ps.map Prod.fst) sequences db db' ↔
      sequences = ps.map Prod.snd ∧ db' = landAll qs db := by
  induction h generalizing db sequences with
  | nil =>
    constructor
    · intro hsingly
      cases hsingly
      exact ⟨rfl, rfl⟩
    · rintro ⟨rfl, rfl⟩
      exact .nil _
  | @cons lsn b b' frame ps qs hne hbase hawake hmax hframe hrebound rest ih =>
    subst hlsn hroot
    have hrest : saturatingAdd (wrappingAdd db.walBytes frame.length)
        ((qs.map Prod.snd).map List.length).sum ≤
          db.options.limits.maxUncheckpointedWalBytes := saturatingAdd_wrappingAdd_le hlimit
    have hfirst : saturatingAdd db.walBytes frame.length ≤
        db.options.limits.maxUncheckpointedWalBytes := by
      refine le_trans ?_ hlimit
      exact min_le_min_right _ (Nat.add_le_add_left (Nat.le_add_right _ _) _)
    have hland : Singly (ps.map Prod.fst) sequences.tail (b'.land frame db) db' ↔
        sequences.tail = ps.map Prod.snd ∧ db' = landAll qs (b'.land frame db) :=
      ih hshared hpoisoned rfl rfl hrest
    constructor
    · intro hsingly
      cases hsingly with
      | cons env' checkpoint tick' head tail =>
      obtain ⟨rfl, b₂, frame₂, hrebound₂, hframe₂, rfl⟩ := commit_ok hshared hbase hne head
      rw [hframe] at hframe₂
      cases hframe₂
      rw [(hrebound.alike hrebound₂).land] at tail
      obtain ⟨hsequences, hdb⟩ := hland.mp tail
      exact ⟨congrArg _ hsequences, hdb⟩
    · rintro ⟨rfl, hdb⟩
      exact .cons (env.patient tick) (fun db => (.ok (), db)) 0
        (commit_patient _ tick 0 hshared hpoisoned hne hawake hmax hframe hrebound hfirst)
        (hland.mpr ⟨rfl, hdb⟩)

end Groups

end EveDB.Store
