import EveDB.Recovery.Counter
import EveDB.Store.Life
import EveDB.Store.Singles
import EveDB.Shared.Validation

/-!
# Group commit equals committing one at a time

The batches of a group that has passed validation are apart: no two of them have staged the same
entity. So each of them is found in the final view as it was staged, bound to the current root,
with its own events stamped by its own sequence and all earlier events as they were
(`Ready.published`). Together with `Ready.singly_iff` this is `group_commit_eq_singles`.
-/

namespace EveDB.Store

open Fallible

/-! ### What is published -/

section Published

/-- **What publishing a batch lays over the view.** -/
theorem getElem?_publishState (b : Prepared) (n : ℕ) (db : Database) (key : ℕ × ℕ) :
    (((b.restamp n).publishState n db).state.overlay)[key]? =
      (b.staged[key]?.map fun data => (data.stamped b.baseSequence n).sealEvents).or
        db.state.overlay[key]? := by
  change (Prepared.sealOver (b.restamp n).staged db.state.overlay)[key]? = _
  rw [getElem?_sealOver]
  change (((b.staged.map fun _ data => data.stamped b.baseSequence n)[key]?).map _).or _ = _
  rw [Std.ExtTreeMap.getElem?_map, Option.map_map]
  rfl

/-- What no batch has staged stays as it is. -/
theorem publishEach_other {bs : List Prepared} {key : ℕ × ℕ}
    (h : ∀ b ∈ bs, b.staged[key]? = none) (db : Database) :
    (publishEach bs db).state.overlay[key]? = db.state.overlay[key]? := by
  induction bs generalizing db with
  | nil => rfl
  | cons b bs ih =>
    obtain ⟨hb, hbs⟩ := List.forall_mem_cons.mp h
    rw [publishEach, ih hbs, getElem?_publishState, hb]
    rfl

variable {env : Env} {root : Checkpoint}

/-- A key that is not staged by a batch is not staged by what it is bound to. -/
theorem Ready.unstaged {tick lsn : ℕ} {ps : List (Prepared × ℕ)} {qs : List (Prepared × Bytes)}
    (h : Ready env root tick lsn ps qs) {key : ℕ × ℕ}
    (hps : ∀ p ∈ ps, p.1.staged[key]? = none) : ∀ b ∈ qs.map Prod.fst, b.staged[key]? = none := by
  induction h with
  | nil =>
    rintro b ⟨⟩
  | @cons lsn b b' frame ps qs hne hbase hawake hmax hframe hrebound rest ih =>
    obtain ⟨hp, hps⟩ := List.forall_mem_cons.mp hps
    refine List.forall_mem_cons.mpr ⟨?_, ih hps⟩
    have hrel := hrebound.sameEntities key
    rw [show b.staged[key]? = none from hp] at hrel
    change b'.staged[key]? = none
    generalize b'.staged[key]? = found at hrel
    cases hrel
    rfl

/-- **Each batch is found in the final view as it was staged**, under its own sequence, when no
other one has staged the same. -/
theorem Ready.published {tick lsn : ℕ} {ps : List (Prepared × ℕ)} {qs : List (Prepared × Bytes)}
    (h : Ready env root tick lsn ps qs)
    (hapart : ps.Pairwise fun p q => ∀ (key : ℕ × ℕ) (data : EntityData),
      p.1.staged[key]? = some data → q.1.staged[key]? = none)
    {db : Database} (hlsn : db.state.lsn = lsn) :
    ∀ p ∈ ps, ∀ (key : ℕ × ℕ) (data : EntityData), p.1.staged[key]? = some data →
      ∃ data', data.Kept data' ∧ (publishEach (qs.map Prod.fst) db).state.overlay[key]? =
        some (data'.stamped p.1.baseSequence p.2).sealEvents := by
  induction h generalizing db with
  | nil =>
    rintro p ⟨⟩
  | @cons lsn b b' frame ps qs hne hbase hawake hmax hframe hrebound rest ih =>
    obtain ⟨hhead, hpairwise⟩ := List.pairwise_cons.mp hapart
    refine List.forall_mem_cons.mpr ⟨fun key data hdata => ?_, ?_⟩
    · have hrel := hrebound.sameEntities key
      rw [show b.staged[key]? = some data from hdata] at hrel
      generalize hdata' : b'.staged[key]? = found at hrel
      cases hrel with
      | some hkept =>
      refine ⟨_, hkept, ?_⟩
      rw [List.map_cons, publishEach, publishEach_other (rest.unstaged fun p hp =>
        hhead p hp key data hdata), getElem?_publishState, hdata', hlsn,
        hrebound.spec.2.baseSequence]
      rfl
    · exact ih hpairwise (congrArg (· + 1) hlsn)

end Published

/-! ### Validated groups -/

/-- What the coordinator validates of a batch. -/
structure Prepared.Represents {E : Engine} {S : Semantics E} (b : Prepared) (p : EveDB.Prepared S) :
    Prop where
  baseSequence : p.base.lsn = b.baseSequence
  keys : p.keys = b.keys
  changesCatalog : p.changesCatalog = b.changesCatalog
  isEmpty : p.isEmpty = b.isEmpty
  payload : p.payload = encodeOps b.operations
  bytes : p.bytes = b.reservation.bytes

/-- **An entity in the final view**: its own events carry the sequence of the batch, and the events
in front of them are as they were. -/
structure EntityData.PublishedAs (n : ℕ) (data final : EntityData) : Prop where
  current : final.current = data.current
  base : final.base = data.base
  events : final.events = []
  own : ∀ event ∈ data.events,
    final.committed[event.version]? = some { event with transaction := n }
  earlier : ∀ (version : ℕ) (event : Event), final.committed[version]? = some event →
    (∃ own ∈ data.events, own.version = version ∧ event = { own with transaction := n }) ∨
      (data.committed[version]? = some event ∧ ∀ own ∈ data.events, version < own.version)

/-- Stamping what has been staged on a view replaces all stamps. -/
theorem EntityData.StagedOn.publishedAs {view : ReadState} {data data' : EntityData}
    (h : data.StagedOn view) (hkept : data.Kept data') (n : ℕ) :
    data.PublishedAs n (data'.stamped view.lsn n).sealEvents := by
  have hordered := (hkept.ordered h.ordered).stamped view.lsn n
  have hevents : (data'.stamped view.lsn n).events =
      data.events.map fun event => { event with transaction := n } := by
    change data'.events.map _ = _
    rw [hkept.events]
    refine List.map_congr_left fun event hevent => ?_
    rw [if_pos (by rw [h.stamped event hevent]; exact Nat.lt_succ_self _)]
  refine ⟨hkept.current, hkept.base, rfl, fun event hevent => ?_, fun version event hevent => ?_⟩
  · have hmem : ({ event with transaction := n } : Event) ∈ (data'.stamped view.lsn n).events := by
      rw [hevents]
      exact List.mem_map.mpr ⟨event, hevent, rfl⟩
    exact hordered.getElem?_own hmem
  · rcases hordered.getElem?_sealEvents hevent with ⟨hown, hversion⟩ | hcommitted
    · rw [hevents] at hown
      obtain ⟨own, hown', rfl⟩ := List.mem_map.mp hown
      exact Or.inl ⟨own, hown', hversion, rfl⟩
    · have hcommitted' := hkept.committed version event hcommitted
      exact Or.inr ⟨hcommitted', h.ordered.committed_lt version event hcommitted'⟩

/-- The batches of a group that has been validated are apart. -/
theorem apart_of_represents {E : Engine} {S : Semantics E} {batches : List Prepared}
    {accepted : List (EveDB.Prepared S)}
    (h : List.Forall₂ Prepared.Represents batches accepted)
    (hapart : accepted.Pairwise Coordinator.Apart) :
    batches.Pairwise fun b b' => ∀ key ∈ b.keys, key ∈ b'.keys → maxU64 ≤ b'.baseSequence := by
  induction h with
  | nil => exact .nil
  | @cons b p batches accepted hbp hrest ih =>
    obtain ⟨hhead, hpairwise⟩ := List.pairwise_cons.mp hapart
    refine List.pairwise_cons.mpr ⟨fun b' hb' key hkey hkey' => ?_, ih hpairwise⟩
    obtain ⟨q, hq, hbq⟩ := exists_related hrest hb'
    rw [← hbq.baseSequence]
    rw [← hbp.keys] at hkey
    rw [← hbq.keys] at hkey'
    exact hhead q hq (Or.inl ⟨key, hkey, hkey'⟩)

theorem Prepared.mem_keys {b : Prepared} {key : ℕ × ℕ} {data : EntityData}
    (h : b.staged[key]? = some data) : key ∈ b.keys :=
  List.mem_map.mpr ⟨(key, data), Std.ExtTreeMap.mem_toList_iff_getElem?_eq_some.mpr h, rfl⟩

/-- Where nobody gets a sequence, nothing is committed. -/
theorem committed_refused {env : Env} {last : ℕ} {e : Error} {batches : List Prepared}
    {answers : List (Option (Result ℕ))}
    (h : List.Forall₂ (fun b a => Passed env last b a ∨ a = some (.error e)) batches answers) :
    committed batches answers = [] := by
  induction h with
  | nil => rfl
  | @cons b a batches answers hba _ ih =>
    rcases hba with hpassed | rfl
    · rw [committed_cons_passed hpassed]
      exact ih
    · exact ih

/-- Nothing that is ready has begun at the largest sequence. -/
theorem Ready.base_lt {env : Env} {root : Checkpoint} {tick lsn : ℕ} {ps : List (Prepared × ℕ)}
    {qs : List (Prepared × Bytes)} (h : Ready env root tick lsn ps qs) :
    ∀ p ∈ ps, p.1.baseSequence < maxU64 := by
  induction h with
  | nil =>
    rintro p ⟨⟩
  | cons hne hbase hawake hmax hframe hrebound rest ih =>
    exact List.forall_mem_cons.mpr ⟨hbase.trans_lt hmax, ih⟩

/-- **Group commit equals committing one at a time.** Whatever the history of a shared database,
the members of a group that has passed validation and the clock are, when the log is written
without failure: the preparation ends and everybody is answered, and what is answered but not
committed was late by its end or empty, unless there is a reason to refuse the group (`Refusal`),
all others get the error of it and nothing happens; what is committed gets the sequences
behind the last one, in order; committing it one at a time is possible, gives the same sequences,
and leads to exactly the same database, its log and its state included; and in the final view each
committed entity has its own events under the sequence of its batch, and the events in front of
them as they were. -/
theorem group_commit_eq_singles {E : Engine} {S : Semantics E} {views : List ReadState}
    {db db' : Database} (hlife : Life views db) (hshared : db.sharedMode = true) {c : Coordinator}
    {poisoned : Bool} {late : ℕ → Bool} {claimed accepted : List (EveDB.Prepared S)}
    {completed : List (EveDB.Prepared S × Result ℕ)}
    (hvalid : c.validateGroup poisoned late ∅ c.catalogRevision claimed = (accepted, completed))
    {batches : List Prepared} (hbatches : ∀ b ∈ batches, ∃ view ∈ views, b.HandedOver view)
    (haccepted : List.Forall₂ Prepared.Represents batches accepted) {env : Env}
    {checkpoint : Database → Result Unit × Database} {tick : ℕ}
    {answers : List (Option (Result ℕ))}
    (h : commitGroup env checkpoint .done tick batches db = (answers, db')) :
    (List.Forall₂ (fun b a =>
        Passed env (preparationEnd env db.state.root db.state.lsn tick batches) b a ∨
          ∃ n, a = some (.ok n)) batches answers ∨
      ∃ e, Refusal env tick batches db e ∧ db' = db ∧
        List.Forall₂ (fun b a =>
          Passed env (preparationEnd env db.state.root db.state.lsn tick batches) b a ∨
            a = some (.error e)) batches answers) ∧
    (committed batches answers).map Prod.snd =
      List.range' (db.state.lsn + 1) (committed batches answers).length ∧
    (∀ sequences db'', Singly ((committed batches answers).map Prod.fst) sequences db db'' ↔
      sequences = (committed batches answers).map Prod.snd ∧ db'' = db') ∧
    (∀ p ∈ committed batches answers, ∀ (key : ℕ × ℕ) (data : EntityData),
      p.1.staged[key]? = some data → ∃ final, db'.state.overlay[key]? = some final ∧
        data.PublishedAs p.2 final) ∧
    (∀ key : ℕ × ℕ, (∀ p ∈ committed batches answers, p.1.staged[key]? = none) →
      db'.state.overlay[key]? = db.state.overlay[key]?) := by
  obtain ⟨hsettled, hviews⟩ := hlife.settled
  have hbase : ∀ b ∈ batches, b.baseSequence ≤ db.state.lsn := by
    intro b hb
    obtain ⟨view, hview, hover⟩ := hbatches b hb
    rw [(hover.stagedOn (hviews view hview).1).1]
    exact (hviews view hview).2
  rcases commitGroup_cases hshared hbase h with
    ⟨e, hrefusal, rfl, hanswers⟩ | ⟨hpoisoned, tick₀, qs, hready, hlimit, rfl, hanswers⟩
  · rw [committed_refused hanswers]
    refine ⟨Or.inr ⟨e, hrefusal, rfl, hanswers⟩, rfl,
      fun sequences db'' => ⟨fun hsingly => ?_, ?_⟩, ?_, ?_⟩
    · cases hsingly
      exact ⟨rfl, rfl⟩
    · rintro ⟨rfl, rfl⟩
      exact .nil _
    · exact List.forall_mem_nil _
    · exact fun _ _ => rfl
  · have hsub := committed_sublist batches answers
    have hapart := apart_of_represents haccepted
      (Coordinator.validateGroup_spec hvalid (by simp)).2.2.2
    have hdisjoint : (committed batches answers).Pairwise fun p q => ∀ (key : ℕ × ℕ)
        (data : EntityData), p.1.staged[key]? = some data → q.1.staged[key]? = none := by
      refine (List.pairwise_map.mp (hapart.sublist hsub)).imp_of_mem ?_
      intro p q hp hq hpq key data hdata
      rw [Option.eq_none_iff_forall_ne_some]
      intro other hother
      exact absurd (hpq key (Prepared.mem_keys hdata) (Prepared.mem_keys hother))
        (Nat.not_le.mpr (hready.base_lt q hq))
    have hstate : (landAll qs db).state = (publishEach (qs.map Prod.fst) db).state := by
      rw [landAll_eq]
      rfl
    refine ⟨Or.inl hanswers, hready.sequences, fun sequences db'' => ?_, ?_, ?_⟩
    · exact hready.singly_iff hshared hpoisoned rfl rfl hlimit
    · intro p hp key data hdata
      obtain ⟨data', hkept, hfound⟩ := hready.published hdisjoint rfl p hp key data hdata
      obtain ⟨view, hview, hover⟩ := hbatches p.1 (hsub.subset (List.mem_map_of_mem hp))
      obtain ⟨hsequence, hstaged⟩ := hover.stagedOn (hviews view hview).1
      rw [hsequence] at hfound
      rw [hstate]
      exact ⟨_, hfound, (hstaged key data hdata).publishedAs hkept p.2⟩
    · intro key hkey
      rw [hstate]
      exact publishEach_other (hready.unstaged hkey) db

/-! ### Groups that are not refused -/

section Room

variable {env : Env} {root : Checkpoint}

/-- The frames of batches are as long as their payloads and headers. -/
theorem Ready.length_frames {tick lsn : ℕ} {ps : List (Prepared × ℕ)} {qs : List (Prepared × Bytes)}
    (h : Ready env root tick lsn ps qs) : ((qs.map Prod.snd).map List.length).sum =
      ((ps.map Prod.fst).map fun b => 40 + (encodeOps b.operations).length).sum := by
  induction h with
  | nil => rfl
  | @cons lsn b b' frame ps qs hne hbase hawake hlsn hframe hrebound rest ih =>
    obtain ⟨-, rfl⟩ := @Frame.encode_eq_ok ⟨2, lsn + 1, encodeOps b.operations⟩ _ hframe
    simp only [List.map_cons, List.sum_cons, ih, Frame.length_bytes]

/-- **A group is not refused** by an open database whose root can be read, when its batches get the
memory they ask for, and there are sequences, frames and room in the log for all of them. -/
theorem not_refusal {tick : ℕ} {batches : List Prepared} {db : Database}
    (hopen : db.poisoned = false) (hready : env.poisoned tick = false)
    (hread : ∀ b ∈ batches, ∃ staged,
      (rebindAll db.state.root b.rootGeneration b.staged.toList b.staged).result = .ok staged)
    (hgranted : ∀ b ∈ batches, ∀ i, tick < i →
      (rebindAll db.state.root b.rootGeneration b.staged.toList b.staged).Granted
        (Account.answer env) ⟨b.reservation, i⟩)
    (hsequences : db.state.lsn + batches.length ≤ maxU64)
    (hframes : ∀ b ∈ batches, (encodeOps b.operations).length ≤ maxFrame)
    (hroom : saturatingAdd db.walBytes
      (batches.map fun b => 40 + (encodeOps b.operations).length).sum ≤
        db.options.limits.maxUncheckpointedWalBytes) (e : Error) :
    ¬ Refusal env tick batches db e := by
  intro hrefusal
  cases hrefusal with
  | closed h => simp [hopen, hready] at h
  | storage hb h =>
    obtain ⟨staged, hstaged⟩ := hread _ hb
    cases hstaged.symm.trans h
  | admission hb hi h => cases (hgranted _ hb _ hi).symm.trans h
  | stamps h =>
    cases h with
    | exhausted h => exact absurd hsequences (Nat.not_le.mpr h)
    | oversized hb h => exact absurd (hframes _ hb) (Nat.not_le.mpr h)
  | log hps hready h =>
    refine absurd (le_trans ?_ hroom) (Nat.not_le.mpr h)
    rw [hready.length_frames]
    exact min_le_min_right _
      (Nat.add_le_add_left ((hps.map _).sum_le_sum fun _ _ => Nat.zero_le _) _)

end Room

/-- Calls on the view of a new database are handed over when they are done. -/
theorem handedOver_emptyView {files : Files} {calls : List Call} {s : Staging} (deadline : ℕ)
    {results : List (Result Unit)} (hcalls : Call.performAll (Env.quiet Limits.default false) calls
      (emptyTransaction files) = (results, { emptyTransaction files with value := some s }))
    (hfailed : s.failed = false) :
    (s.looked.prepare (some deadline)).HandedOver (emptyView files) := by
  have htake : Transaction.take (Env.quiet Limits.default false)
      { emptyTransaction files with value := some s } = .ok s.looked := by
    unfold Transaction.take
    exact if_neg Bool.false_ne_true
  exact ⟨_, _, _, _, calls, results, _, _, s.looked, deadline, new_emptyView files, hcalls, htake,
    hfailed, rfl⟩

/-- A new database opens with an empty view, and nothing in its log. -/
theorem exists_open_initial (files : Root → Files) : ∃ db dir,
    openDatabase (Env.quiet Limits.default false) files Options.default initializeDirectory =
      .ok (db, dir) ∧
    db.state = emptyView (files Root.empty) ∧ db.published = emptyView (files Root.empty) ∧
      db.walBytes = 0 ∧ db.poisoned = false ∧ db.options = Options.default := by
  have hoptions : Options.default.validate 0 = .ok () := by decide
  obtain ⟨o, hopen, hview, hreplayed⟩ := open_initial
    (engine ((Env.quiet Limits.default false).forRecovery Options.default.limits) files
      Options.default)
  have hbytes : o.walBytes = 0 := by
    rw [openWithOptions_counts hopen, hreplayed]
    rfl
  exact ⟨_, _, bind_eq_ok.mpr ⟨(), hoptions, bind_eq_ok.mpr ⟨o, hopen, rfl⟩⟩, hview, hview, hbytes,
    rfl, rfl⟩

/-- The batch is handed over. -/
theorem handedOver_firstBatch (files : Files) : (firstBatch files).HandedOver (emptyView files) :=
  handedOver_emptyView 5 (performAll_firstCalls files) rfl

/-- In a group of two on a new database, one of which comes too late. The other one is committed,
and the event of its item carries its sequence. -/
theorem group_commit_eq_singles_run : ∃ (views : List ReadState) (batches : List Prepared)
    (answers : List (Option (Result ℕ))) (db db' : Database), Life views db ∧ batches.length = 2 ∧
      commitGroup (Env.quiet Limits.default false) (fun db => (.ok (), db)) .done 0 batches db =
        (answers, db') ∧
      committed batches answers = [(firstBatch Files.empty, 1)] ∧
      (∃ final, db'.state.overlay[((1, 7) : ℕ × ℕ)]? = some final ∧
        final.committed[1]? = some ⟨1, 1, 1, .apply, named "b"⟩) ∧
      ∀ sequences db'',
        Singly [firstBatch Files.empty] sequences db db'' ↔ sequences = [1] ∧ db'' = db' := by
  obtain ⟨db, dir, hopen, hstate, hview, hbytes, hpoisoned, hoptions⟩ :=
    exists_open_initial fun _ => Files.empty
  have hlife := (Life.opened hopen).share
  have hlate : ((emptyStaging Files.empty 4).prepare (some 0)).HandedOver (emptyView Files.empty) :=
    handedOver_emptyView 0 (s := emptyStaging Files.empty 3)
      (show Call.performAll _ [] _ = ([], _) from rfl) rfl
  let S := Semantics.views (engine (Env.quiet Limits.default false) (fun _ => Files.empty)
    Options.default)
  have hrepresents (b : Prepared) : b.Represents (S := S)
      ⟨0, ⟨b.baseSequence, emptyView Files.empty⟩, b.keys, b.changesCatalog, b.isEmpty,
        encodeOps b.operations, b.reservation.bytes⟩ :=
    ⟨rfl, rfl, rfl, rfl, rfl, rfl⟩
  have hvalid (b b' : EveDB.Prepared S) (hb : b.keys = []) (hc : b.changesCatalog = false) :
      Coordinator.new.validateGroup false (fun _ => false) ∅ Coordinator.new.catalogRevision
        [b, b'] = ([b, b'], []) := by
    have hnone (base : ℕ) (keys : List EntityKey) :
        Coordinator.new.conflicting ∅ base keys = none := by
      simp [Coordinator.conflicting, Coordinator.revision, Coordinator.new]
    simp [Coordinator.validateGroup, Coordinator.validate, hnone, hb, hc,
      show Coordinator.new.catalogRevision = 0 from rfl]
  rcases hgroup : commitGroup (Env.quiet Limits.default false) (fun db => (.ok (), db)) .done 0
    [(emptyStaging Files.empty 4).prepare (some 0), firstBatch Files.empty]
      { db with sharedMode := true } with
      ⟨answers, db'⟩
  obtain ⟨hanswers, hsequences, hsingly, hpublished, -⟩ :=
    group_commit_eq_singles hlife rfl (hvalid _ _ rfl rfl) (by
      intro b hb
      refine ⟨db.published, List.mem_singleton_self _, ?_⟩
      rw [hview]
      rcases List.mem_cons.mp hb with rfl | hb
      · exact hlate
      · rw [List.mem_singleton.mp hb]
        exact handedOver_firstBatch Files.empty)
      (.cons (hrepresents _) (.cons (hrepresents _) .nil)) hgroup
  -- nothing is a reason to refuse the group
  have hrefusal (e : Error) : ¬ Refusal (Env.quiet Limits.default false) 0
      [(emptyStaging Files.empty 4).prepare (some 0), firstBatch Files.empty]
        { db with sharedMode := true } e := by
    have hnothing : ∀ b ∈ [(emptyStaging Files.empty 4).prepare (some 0), firstBatch Files.empty],
        ∃ staged, rebindAll db.state.root b.rootGeneration b.staged.toList b.staged =
          pure staged := by
      rw [hstate]
      simp only [List.forall_mem_cons]
      exact ⟨⟨_, rfl⟩, ⟨_, rfl⟩, List.forall_mem_nil _⟩
    refine @not_refusal (Env.quiet Limits.default false) 0 _ { db with sharedMode := true }
      hpoisoned rfl (fun b hb => ?_) (fun b hb i _ => ?_) ?_ ?_ ?_ e
    · obtain ⟨staged, hstaged⟩ := hnothing b hb
      exact ⟨staged, by rw [hstaged]; rfl⟩
    · obtain ⟨staged, hstaged⟩ := hnothing b hb
      rw [hstaged]
      rfl
    · change db.state.lsn + 2 ≤ maxU64
      rw [hstate]
      decide
    · decide +kernel
    · change saturatingAdd db.walBytes _ ≤ db.options.limits.maxUncheckpointedWalBytes
      rw [hbytes, hoptions]
      decide +kernel
  have hcommitted : committed
      [(emptyStaging Files.empty 4).prepare (some 0), firstBatch Files.empty] answers =
      [(firstBatch Files.empty, 1)] := by
    rcases hanswers with hall | ⟨e, he, -⟩
    swap
    · exact absurd he (hrefusal e)
    cases hall with
    | @cons _ a _ _ _ hall =>
    cases hall with
    | @cons _ a' _ _ hfirst hnil =>
    cases hnil
    rcases hfirst with (⟨hempty, -⟩ | ⟨-, hlate⟩) | ⟨n, rfl⟩
    · cases hempty
    · cases hlate
    · have hsplit : committed
          [(emptyStaging Files.empty 4).prepare (some 0), firstBatch Files.empty]
          [a, some (.ok n)] = [(firstBatch Files.empty, n)] := by
        rcases a with _ | _ | m
        · rfl
        · rfl
        · rfl
      rw [hsplit] at hsequences ⊢
      have hn : [n] = [db.state.lsn + 1] := hsequences
      rw [hstate] at hn
      cases hn
      rfl
  rw [hcommitted] at hsingly hpublished
  obtain ⟨final, hfinal, hentity⟩ :=
    hpublished _ (List.mem_singleton_self _) (1, 7) firstEntity Std.ExtTreeMap.getElem?_insert_self
  exact ⟨[db.published], _, answers, _, db', hlife, rfl, hgroup, hcommitted,
    ⟨final, hfinal, hentity.own _ (List.mem_singleton_self _)⟩, hsingly⟩

end EveDB.Store
