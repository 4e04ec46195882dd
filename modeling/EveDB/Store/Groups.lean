import EveDB.Store.Commit

/-!
# Group commit and single commits

A group commit comes to committing the members that survive its preparation one at a time
(`group_commit_eq_singles`). Behind that are three facts about the preparation. Its loop ends,
because a member that is found late in one round is answered in the next one, as time does not
go back (`rounds_ends`). Being stamped again in every round is being stamped once
(`Prepared.restamp_restamp`). And rebinding a batch depends on the batch and the root alone, so
it makes no difference when it is done (`Prepared.rebind_patient`).
-/

namespace EveDB.Store

open Fallible

/-! ### The loop ends -/

section Ends

variable (env : Env)

/-- The active members. -/
def actives (ms : List Member) : List Member := ms.filter Member.active

/-- An active member is late. -/
def Late (tick : ℕ) (ms : List Member) : Prop :=
  ∃ m ∈ actives ms, expired m.batch.deadline (env.now tick) = true

variable {env}

/-- A deadline that has passed stays passed. -/
theorem expired_mono {deadline : Option ℕ} {i j : ℕ} (hij : i ≤ j)
    (h : expired deadline (env.now i) = true) : expired deadline (env.now j) = true := by
  cases deadline with
  | none => exact h
  | some last =>
    exact decide_eq_true (Nat.le_trans (of_decide_eq_true h) (env.now_mono hij))

theorem settle_cons_active {m : Member} (h : m.active = true) (tick : ℕ) (ms : List Member) :
    settle env tick (m :: ms) =
      ({ m with answer := verdict env tick m.batch } :: (settle env (tick + 1) ms).1,
        (settle env (tick + 1) ms).2) := by
  rw [settle, if_pos h]

theorem settle_cons_answered {m : Member} (h : m.active = false) (tick : ℕ) (ms : List Member) :
    settle env tick (m :: ms) = (m :: (settle env tick ms).1, (settle env tick ms).2) := by
  rw [settle, if_neg (by rw [h]; exact Bool.false_ne_true)]

theorem le_settle (tick : ℕ) (ms : List Member) : tick ≤ (settle env tick ms).2 := by
  induction ms generalizing tick with
  | nil => exact le_rfl
  | cons m ms ih =>
    cases hm : m.active with
    | true =>
      rw [settle_cons_active hm]
      exact (Nat.le_succ tick).trans (ih (tick + 1))
    | false =>
      rw [settle_cons_answered hm]
      exact ih tick

theorem actives_cons (m : Member) (ms : List Member) :
    (actives (m :: ms)).length = (if m.active then 1 else 0) + (actives ms).length := by
  rw [actives, List.filter_cons]
  cases m.active
  · exact (Nat.zero_add _).symm
  · exact Nat.add_comm _ 1

/-- **Settling** makes no member active again, and when one is late, fewer are active behind
it. -/
theorem actives_settle (tick : ℕ) (ms : List Member) :
    (actives (settle env tick ms).1).length ≤ (actives ms).length ∧
      (Late env tick ms → (actives (settle env tick ms).1).length < (actives ms).length) := by
  induction ms generalizing tick with
  | nil =>
    refine ⟨le_rfl, ?_⟩
    rintro ⟨m, hm, -⟩
    cases hm
  | cons m ms ih =>
    cases hm : m.active with
    | false =>
      obtain ⟨hle, hlt⟩ := ih tick
      rw [settle_cons_answered hm, actives_cons, actives_cons, hm]
      refine ⟨Nat.add_le_add_left hle _, fun hlate => Nat.add_lt_add_left (hlt ?_) _⟩
      obtain ⟨m', hm', hexp⟩ := hlate
      rw [actives, List.filter_cons_of_neg (by rw [hm]; exact Bool.false_ne_true)] at hm'
      exact ⟨m', hm', hexp⟩
    | true =>
      obtain ⟨hle, hlt⟩ := ih (tick + 1)
      rw [settle_cons_active hm, actives_cons, actives_cons, hm, if_pos rfl]
      have hone : (if Member.active { m with answer := verdict env tick m.batch } then 1 else 0) ≤
          1 := by
        split
        · exact le_rfl
        · exact Nat.zero_le 1
      refine ⟨Nat.add_le_add hone hle, ?_⟩
      rintro ⟨m', hm', hexp⟩
      rw [actives, List.filter_cons_of_pos hm] at hm'
      rcases List.mem_cons.mp hm' with rfl | hm'
      · have hanswer : verdict env tick m'.batch = some (.error .deadlineExceeded) := if_pos hexp
        have hinactive : Member.active { m' with answer := verdict env tick m'.batch } = false := by
          rw [hanswer]
          rfl
        rw [hinactive, if_neg Bool.false_ne_true]
        omega
      · have := hlt ⟨m', hm', expired_mono (Nat.le_succ tick) hexp⟩
        omega

theorem le_inTime {tick tick' : ℕ} {ms : List Member} {b : Bool}
    (h : inTime env tick ms = (b, tick')) : tick ≤ tick' := by
  induction ms generalizing tick with
  | nil =>
    cases h
    exact le_rfl
  | cons m ms ih =>
    rw [inTime] at h
    split at h
    · split at h
      · cases h
        exact Nat.le_succ tick
      · exact (Nat.le_succ tick).trans (ih h)
    · exact ih h

/-- A member that is not in time is late from then on. -/
theorem late_of_inTime {tick tick' : ℕ} {ms : List Member}
    (h : inTime env tick ms = (false, tick')) : Late env tick' ms := by
  induction ms generalizing tick with
  | nil => cases h
  | cons m ms ih =>
    rw [inTime] at h
    split at h
    · next hm =>
      split at h
      · next hexp =>
        cases h
        exact ⟨m, List.mem_filter.mpr ⟨List.mem_cons_self, hm⟩,
          expired_mono (Nat.le_succ tick) hexp⟩
      · obtain ⟨m', hm', hlate⟩ := ih h
        obtain ⟨hmem, hactive⟩ := List.mem_filter.mp hm'
        exact ⟨m', List.mem_filter.mpr ⟨List.mem_cons_of_mem _ hmem, hactive⟩, hlate⟩
    · obtain ⟨m', hm', hlate⟩ := ih h
      obtain ⟨hmem, hactive⟩ := List.mem_filter.mp hm'
      exact ⟨m', List.mem_filter.mpr ⟨List.mem_cons_of_mem _ hmem, hactive⟩, hlate⟩

/-- Stamping makes no member active or inactive. -/
theorem actives_stamp {lsn offset : ℕ} {ms ms' : List Member} {frames : List Bytes}
    (h : stamp lsn offset ms = .ok (ms', frames)) :
    (actives ms').length = (actives ms).length := by
  induction ms generalizing offset ms' frames with
  | nil =>
    cases h
    rfl
  | cons m ms ih =>
    rw [stamp] at h
    split at h
    · next hm =>
      split at h
      · cases h
      · obtain ⟨frame, -, h⟩ := bind_eq_ok.mp h
        obtain ⟨⟨ms₁, frames₁⟩, hrest, heq⟩ := bind_eq_ok.mp h
        cases heq
        rw [actives_cons, actives_cons, ih hrest]
        rfl
    · obtain ⟨⟨ms₁, frames₁⟩, hrest, heq⟩ := bind_eq_ok.mp h
      cases heq
      rw [actives_cons, actives_cons, ih hrest]

/-- Each round behind the first one answers a member. -/
theorem rounds_of_late {lsn fuel tick : ℕ} {ms : List Member} (hfuel : (actives ms).length ≤ fuel)
    (hlate : Late env tick ms) : (rounds env lsn fuel tick ms).isSome = true := by
  induction fuel generalizing tick ms with
  | zero =>
    obtain ⟨m, hm, -⟩ := hlate
    have := List.length_pos_of_mem hm
    omega
  | succ fuel ih =>
    have hlt := (actives_settle tick ms).2 hlate
    rw [rounds]
    dsimp only
    cases hstamp : stamp lsn 0 (settle env tick ms).1 with
    | error e => rfl
    | ok r =>
      obtain ⟨ms', frames⟩ := r
      dsimp only
      rcases htime : inTime env (settle env tick ms).2 ms' with ⟨_ | _, tick'⟩
      · refine ih ?_ (late_of_inTime htime)
        rw [actives_stamp hstamp]
        omega
      · rfl

/-- **The loop of the preparation ends**: one round more than there are members is enough. -/
theorem rounds_ends {lsn tick : ℕ} (ms : List Member) :
    (rounds env lsn (ms.length + 1) tick ms).isSome = true := by
  rw [rounds]
  dsimp only
  cases hstamp : stamp lsn 0 (settle env tick ms).1 with
  | error e => rfl
  | ok r =>
    obtain ⟨ms', frames⟩ := r
    dsimp only
    rcases htime : inTime env (settle env tick ms).2 ms' with ⟨_ | _, tick'⟩
    · refine rounds_of_late ?_ (late_of_inTime htime)
      rw [actives_stamp hstamp]
      exact (actives_settle tick ms).1.trans (List.length_filter_le _ _)
    · rfl

end Ends

/-! ### Stamps -/

namespace Prepared

/-- **Being stamped again is being stamped once**, as long as the sequences lie behind the base. -/
theorem restamp_restamp {batch : Prepared} {m : ℕ} (hm : batch.baseSequence < m) (n : ℕ) :
    (batch.restamp m).restamp n = batch.restamp n := by
  have hevent (event : Event) :
      (let stamped := if batch.baseSequence < event.transaction then { event with transaction := m }
        else event
       if batch.baseSequence < stamped.transaction then { stamped with transaction := n }
       else stamped) =
      if batch.baseSequence < event.transaction then { event with transaction := n }
      else event := by
    dsimp only
    by_cases h : batch.baseSequence < event.transaction
    · rw [if_pos h, if_pos (show batch.baseSequence < m from hm), if_pos h]
    · rw [if_neg h, if_neg h]
  unfold restamp
  rw [Std.ExtTreeMap.map_map]
  congr 2
  funext _ data
  rw [List.map_map]
  congr 1
  exact List.map_congr_left fun event _ => hevent event

/-- Batches that only differ in stamps behind the base. -/
structure SameButStamps (b b' : Prepared) : Prop where
  restamp : ∀ n, b'.restamp n = b.restamp n
  deadline : b'.deadline = b.deadline
  operations : b'.operations = b.operations
  baseSequence : b'.baseSequence = b.baseSequence

theorem SameButStamps.refl (b : Prepared) : SameButStamps b b := ⟨fun _ => rfl, rfl, rfl, rfl⟩

theorem SameButStamps.of_restamp {b : Prepared} {m : ℕ} (hm : b.baseSequence < m) :
    SameButStamps b (b.restamp m) := ⟨restamp_restamp hm, rfl, rfl, rfl⟩

end Prepared

/-! ### What the loop comes to -/

section Loop

variable (env : Env)

/-- What has become of a batch by `last`. -/
inductive Tracks (last : ℕ) (b : Prepared) : Member → Prop
  | active {batch : Prepared} (h : b.SameButStamps batch) : Tracks last b ⟨batch, none⟩
  | late {batch : Prepared} (h : expired b.deadline (env.now last) = true) :
      Tracks last b ⟨batch, some (.error .deadlineExceeded)⟩
  | empty {batch : Prepared} (h : b.isEmpty = true) :
      Tracks last b ⟨batch, some (.ok b.baseSequence)⟩

/-- An active member has something to commit, and has been in time at `tick`. -/
def Awake (tick : ℕ) (b : Prepared) (m : Member) : Prop :=
  m.active = true → b.isEmpty = false ∧ expired b.deadline (env.now tick) = false

/-- **Batches, their members behind the last round, and the frames of the active ones**, which
have the sequences behind `lsn`. -/
inductive Written (last tick : ℕ) : ℕ → List Prepared → List Member → List Bytes → Prop
  | nil (lsn : ℕ) : Written last tick lsn [] [] []
  | active {lsn : ℕ} {b : Prepared} {bs : List Prepared} {ms : List Member} {frame : Bytes}
      {frames : List Bytes} (hne : b.isEmpty = false)
      (hawake : expired b.deadline (env.now tick) = false) (hlsn : lsn + 1 ≤ maxU64)
      (hframe : Frame.encode 2 (lsn + 1) (encodeOps b.operations) = .ok frame)
      (rest : Written last tick (lsn + 1) bs ms frames) :
      Written last tick lsn (b :: bs) (⟨b.restamp (lsn + 1), none⟩ :: ms) (frame :: frames)
  | answered {lsn : ℕ} {b : Prepared} {m : Member} {bs : List Prepared} {ms : List Member}
      {frames : List Bytes} (hm : m.active = false) (htracks : Tracks env last b m)
      (rest : Written last tick lsn bs ms frames) : Written last tick lsn (b :: bs) (m :: ms) frames

/-- When the loop of the preparation ends. -/
def roundsEnd (lsn : ℕ) : ℕ → ℕ → List Member → ℕ
  | 0, tick, _ => tick
  | fuel + 1, tick, ms =>
    let (ms, tick) := settle env tick ms
    match stamp lsn 0 ms with
    | .error _ => tick
    | .ok (ms, _) =>
      match inTime env tick ms with
      | (true, tick) => tick
      | (false, tick) => roundsEnd lsn fuel tick ms

variable {env}

/-- The loop does not end before its first round. -/
theorem le_roundsEnd {lsn fuel tick : ℕ} (ms : List Member) :
    tick ≤ roundsEnd env lsn fuel tick ms := by
  induction fuel generalizing tick ms with
  | zero => exact le_rfl
  | succ fuel ih =>
    have hsettle := @le_settle env tick ms
    rw [roundsEnd]
    dsimp only
    split
    · exact hsettle
    · split
      · next htime => exact hsettle.trans (le_inTime htime)
      · next htime => exact (hsettle.trans (le_inTime htime)).trans (ih _)

theorem settle_le_roundsEnd {lsn fuel tick : ℕ} (ms : List Member) :
    (settle env tick ms).2 ≤ roundsEnd env lsn (fuel + 1) tick ms := by
  rw [roundsEnd]
  dsimp only
  split
  · exact le_rfl
  · split
    · next htime => exact le_inTime htime
    · next htime => exact (le_inTime htime).trans (le_roundsEnd _)

variable {last : ℕ}

theorem settle_tracks {tick₀ tick : ℕ} (hle : tick₀ ≤ tick) {bs : List Prepared}
    {ms : List Member} (hlast : (settle env tick ms).2 ≤ last)
    (h : List.Forall₂ (Tracks env last) bs ms) :
    List.Forall₂ (fun b m => Tracks env last b m ∧ Awake env tick₀ b m) bs
      (settle env tick ms).1 := by
  induction h generalizing tick with
  | nil => exact .nil
  | @cons b m bs ms hbm _ ih =>
    cases hm : m.active with
    | false =>
      rw [settle_cons_answered hm] at hlast ⊢
      exact .cons ⟨hbm, fun hactive => by rw [hm] at hactive; cases hactive⟩ (ih hle hlast)
    | true =>
      rw [settle_cons_active hm] at hlast ⊢
      have hnow : tick ≤ last := ((Nat.le_succ tick).trans (le_settle _ ms)).trans hlast
      refine .cons ?_ (ih (hle.trans (Nat.le_succ tick)) hlast)
      cases hbm with
      | late => cases hm
      | empty => cases hm
      | @active batch hsame =>
        have hempty : batch.isEmpty = b.isEmpty := by
          rw [Prepared.isEmpty, hsame.operations]
          rfl
        unfold verdict
        rw [hsame.deadline, hempty, hsame.baseSequence]
        split
        · next hexp => exact ⟨.late (expired_mono hnow hexp), by rintro ⟨⟩⟩
        · next hexp =>
          split
          · next he => exact ⟨.empty he, by rintro ⟨⟩⟩
          · next he =>
            refine ⟨.active hsame, fun _ => ⟨Bool.eq_false_iff.mpr he, ?_⟩⟩
            exact Bool.eq_false_iff.mpr fun h => hexp (expired_mono hle h)

theorem stamp_written {tick lsn offset : ℕ} {bs : List Prepared} {ms ms' : List Member}
    {frames : List Bytes}
    (h : List.Forall₂ (fun b m => Tracks env last b m ∧ Awake env tick b m) bs ms)
    (hstamp : stamp lsn offset ms = .ok (ms', frames)) :
    Written env last tick (lsn + offset) bs ms' frames := by
  induction h generalizing offset ms' frames with
  | nil =>
    cases hstamp
    exact .nil _
  | @cons b m bs ms hbm _ ih =>
    obtain ⟨htracks, hawake⟩ := hbm
    rw [stamp] at hstamp
    split at hstamp
    · next hm =>
      split at hstamp
      · cases hstamp
      · next sequence hsequence =>
        obtain ⟨frame, hframe, hstamp⟩ := bind_eq_ok.mp hstamp
        obtain ⟨⟨ms₁, frames₁⟩, hrest, heq⟩ := bind_eq_ok.mp hstamp
        cases heq
        obtain ⟨rfl, hmax⟩ := checkedAdd_eq_some.mp hsequence
        obtain ⟨hne, htime⟩ := hawake hm
        cases htracks with
        | late => cases hm
        | empty => cases hm
        | @active batch hsame =>
          dsimp only at hframe ⊢
          rw [hsame.restamp]
          rw [hsame.restamp] at hframe
          exact .active hne htime hmax hframe (ih hrest)
    · next hm =>
      obtain ⟨⟨ms₁, frames₁⟩, hrest, heq⟩ := bind_eq_ok.mp hstamp
      cases heq
      exact .answered (Bool.eq_false_iff.mpr hm) htracks (ih hrest)

/-- **Why batches cannot be stamped** behind `lsn`: there are no sequences left for them, or one of
them does not fit a frame. -/
inductive Unstampable (lsn : ℕ) (bs : List Prepared) : Error → Prop
  | exhausted (h : maxU64 < lsn + bs.length) :
    Unstampable lsn bs (.invalid "transaction sequence exhausted")
  | oversized {b : Prepared} (hb : b ∈ bs) (h : maxFrame < (encodeOps b.operations).length) :
    Unstampable lsn bs (.invalid "transaction exceeds 64 MiB")

theorem Unstampable.cons {lsn : ℕ} {bs : List Prepared} {e : Error} (h : Unstampable lsn bs e)
    (b : Prepared) : Unstampable lsn (b :: bs) e := by
  cases h with
  | exhausted h => exact .exhausted (h.trans_le (Nat.add_le_add_left (Nat.le_succ _) _))
  | oversized hb h => exact .oversized (List.mem_cons_of_mem b hb) h

/-- **Stamping fails** for one of these reasons. -/
theorem stamp_error {lsn offset : ℕ} {bs : List Prepared} {ms : List Member} {e : Error}
    (h : List.Forall₂ (Tracks env last) bs ms) (hstamp : stamp lsn offset ms = .error e) :
    Unstampable (lsn + offset) bs e := by
  induction h generalizing offset with
  | nil => cases hstamp
  | @cons b m bs ms htracks _ ih =>
    rw [stamp] at hstamp
    split at hstamp
    · next hm =>
      split at hstamp
      · next hnone =>
        cases hstamp
        have hmax : ¬ lsn + (offset + 1) ≤ maxU64 := by
          intro hle
          rw [checkedAdd_eq_some.mpr ⟨rfl, hle⟩] at hnone
          cases hnone
        refine .exhausted ?_
        rw [List.length_cons]
        omega
      · rcases bind_eq_error.mp hstamp with hframe | ⟨frame, -, hstamp⟩
        · cases htracks with
          | late => cases hm
          | empty => cases hm
          | @active batch hsame =>
            change Frame.encode 2 _ (encodeOps batch.operations) = .error e at hframe
            rw [hsame.operations, Frame.encode] at hframe
            split at hframe
            · next hlarge =>
              cases hframe
              exact .oversized List.mem_cons_self hlarge
            · cases hframe
        · rcases bind_eq_error.mp hstamp with hrest | ⟨_, -, hpure⟩
          · cases ih hrest with
            | exhausted h =>
              refine .exhausted ?_
              rw [List.length_cons]
              omega
            | oversized hb h => exact .oversized (List.mem_cons_of_mem b hb) h
          · cases hpure
    · rcases bind_eq_error.mp hstamp with hrest | ⟨_, -, hpure⟩
      · exact (ih hrest).cons b
      · cases hpure

/-- Behind a round every batch is tracked still. -/
theorem Written.tracks {tick lsn : ℕ} {bs : List Prepared} {ms : List Member}
    {frames : List Bytes} (h : Written env last tick lsn bs ms frames)
    (hbase : ∀ b ∈ bs, b.baseSequence ≤ lsn) : List.Forall₂ (Tracks env last) bs ms := by
  induction h with
  | nil => exact .nil
  | active hne hawake hlsn hframe rest ih =>
    obtain ⟨hb, hbs⟩ := List.forall_mem_cons.mp hbase
    exact .cons (.active (.of_restamp (Nat.lt_succ_of_le hb)))
      (ih fun b hb => (hbs b hb).trans (Nat.le_succ _))
  | answered hm htracks rest ih =>
    obtain ⟨-, hbs⟩ := List.forall_mem_cons.mp hbase
    exact .cons htracks (ih hbs)

/-- **What the loop comes to**: frames for the members that are left, or an error for them, when
they cannot be stamped. -/
theorem rounds_spec {lsn fuel tick₀ tick : ℕ} {bs : List Prepared} {ms ms' : List Member}
    {r : Result (List Bytes)} (hle : tick₀ ≤ tick) (hbase : ∀ b ∈ bs, b.baseSequence ≤ lsn)
    (hlast : roundsEnd env lsn fuel tick ms ≤ last) (h : List.Forall₂ (Tracks env last) bs ms)
    (hrounds : rounds env lsn fuel tick ms = some (r, ms')) :
    List.Forall₂ (Tracks env last) bs ms' ∧
      (∀ frames, r = .ok frames → Written env last tick₀ lsn bs ms' frames) ∧
      ∀ e, r = .error e → Unstampable lsn bs e := by
  induction fuel generalizing tick ms with
  | zero => cases hrounds
  | succ fuel ih =>
    have hsettle := settle_tracks hle ((settle_le_roundsEnd ms).trans hlast) h
    rw [rounds] at hrounds
    rw [roundsEnd] at hlast
    dsimp only at hrounds hlast
    cases hstamp : stamp lsn 0 (settle env tick ms).1 with
    | error e =>
      rw [hstamp] at hrounds
      cases hrounds
      have htracks : List.Forall₂ (Tracks env last) bs (settle env tick ms).1 :=
        hsettle.imp fun _ _ h => h.1
      refine ⟨htracks, ?_, ?_⟩
      · rintro frames ⟨⟩
      · rintro _ ⟨⟩
        exact stamp_error htracks hstamp
    | ok r₁ =>
      obtain ⟨ms₁, frames⟩ := r₁
      rw [hstamp] at hrounds hlast
      dsimp only at hrounds hlast
      have hwritten := stamp_written hsettle hstamp
      rcases htime : inTime env (settle env tick ms).2 ms₁ with ⟨_ | _, tick'⟩
      · rw [htime] at hrounds hlast
        exact ih ((hle.trans (le_settle tick ms)).trans (le_inTime htime)) hlast
          (hwritten.tracks hbase) hrounds
      · rw [htime] at hrounds
        cases hrounds
        refine ⟨hwritten.tracks hbase, ?_, ?_⟩
        · rintro _ ⟨⟩
          exact hwritten
        · rintro _ ⟨⟩

end Loop

end EveDB.Store
