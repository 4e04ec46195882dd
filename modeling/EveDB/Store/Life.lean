import EveDB.Store.Ordered
import EveDB.Store.Reopen
import Mathlib.Logic.Relation

/-!
# The life of a database

What happens to a database from the moment it is opened (`Life`): groups are committed, whose
batches come from transactions on views that have been published, and checkpoints are captured,
installed or given up. What a checkpoint writes is given.

All along, what a view holds is sealed: the events of a transaction are its own until it is
published, and shared from then on (`Life.settled`).
-/

namespace EveDB.Store

open Fallible

/-! ### Checkpoints -/

/-- The database behind the capture of a checkpoint. The log goes on in a segment of its own. -/
def Database.captured (header : Bytes) (db : Database) : Database :=
  { db with wal := header, checkpointTail := some ∅ }

/-- The database behind the installation of a checkpoint: what is not in it stays in memory. -/
def Database.installed (root : Checkpoint) (tail : SortedMap (ℕ × ℕ) EntityData) (record : Bytes)
    (frontier : ℕ) (db : Database) : Database :=
  { db with
    wal := db.wal ++ record
    walBytes := db.walBytes - frontier
    checkpointTail := none
    state := { db.state with root, overlay := tail }
    published := { db.state with root, overlay := tail } }

/-- **A step of the maintenance.** -/
inductive Maintains (db : Database) : Database → Prop
  | capture {header : Bytes} (hopen : db.poisoned = false) (htail : db.checkpointTail = none)
      (hheader : Frame.encode 1 db.state.root.manifest.lsn db.state.root.manifest.encode =
        .ok header) :
      Maintains db (db.captured header)
  | install {root : Checkpoint} {tail : SortedMap (ℕ × ℕ) EntityData} {record : Bytes}
      {frontier : ℕ} (hopen : db.poisoned = false) (htail : db.checkpointTail = some tail)
      (hrecord : Frame.encode 1 root.manifest.lsn root.manifest.encode = .ok record) :
      Maintains db (db.installed root tail record frontier)
  | abandon : Maintains db { db with checkpointTail := none }
  /-- A storage failure, behind some bytes. -/
  | fail (written : Bytes) : Maintains db { db with wal := db.wal ++ written, poisoned := true }

/-! ### The life of a database -/

/-- **The life of a database**: the views it has published, and where it has got to. -/
inductive Life : List ReadState → Database → Prop
  | opened {env : Env} {files : Root → Files} {options : Options} {dir dir' : Directory}
      {db : Database} (hopen : openDatabase env files options dir = .ok (db, dir')) :
      Life [db.published] db
  | share {views : List ReadState} {db : Database} (h : Life views db) :
      Life views { db with sharedMode := true }
  | maintain {views : List ReadState} {db db' : Database} (h : Life views db)
      (hstep : Maintains db db') : Life (db'.published :: views) db'
  | commit {views : List ReadState} {db db' : Database} {env : Env}
      {checkpoint : Database → Result Unit × Database} {write : WalWrite} {tick : ℕ}
      {batches : List Prepared} {answers : List (Option (Result ℕ))} (h : Life views db)
      (hbatches : ∀ batch ∈ batches, ∃ view ∈ views, batch.HandedOver view)
      (hcheckpoint : ∀ db, Relation.ReflTransGen Maintains db (checkpoint db).2)
      (hcommit : commitGroup env checkpoint write tick batches db = (answers, db')) :
      Life (db'.published :: views) db'

section Commit

variable {env : Env} {I : Database → Prop} {A : Member → Prop} {B : Prepared → Prop}

/-- What an answer keeps, answering keeps. -/
theorem settle_forall
    (hanswer : ∀ m tick, A m → A { m with answer := verdict env tick m.batch }) {tick : ℕ}
    {ms : List Member} (h : ∀ m ∈ ms, A m) : ∀ m ∈ (settle env tick ms).1, A m := by
  induction ms generalizing tick with
  | nil => exact h
  | cons m ms ih =>
    obtain ⟨hm, hms⟩ := List.forall_mem_cons.mp h
    cases hactive : m.active with
    | true =>
      rw [settle_cons_active hactive]
      exact List.forall_mem_cons.mpr ⟨hanswer m tick hm, ih hms⟩
    | false =>
      rw [settle_cons_answered hactive]
      exact List.forall_mem_cons.mpr ⟨hm, ih hms⟩

theorem stamp_forall (hstamp : ∀ m n, A m → A { m with batch := m.batch.restamp n })
    {lsn offset : ℕ} {ms ms' : List Member} {frames : List Bytes}
    (h : stamp lsn offset ms = .ok (ms', frames)) (hms : ∀ m ∈ ms, A m) : ∀ m ∈ ms', A m := by
  induction ms generalizing offset ms' frames with
  | nil =>
    cases h
    exact hms
  | cons m ms ih =>
    obtain ⟨hm, hms⟩ := List.forall_mem_cons.mp hms
    rw [stamp] at h
    split at h
    · split at h
      · cases h
      · obtain ⟨frame, -, h⟩ := bind_eq_ok.mp h
        obtain ⟨⟨ms₁, frames₁⟩, hrest, heq⟩ := bind_eq_ok.mp h
        cases heq
        exact List.forall_mem_cons.mpr ⟨hstamp m _ hm, ih hrest hms⟩
    · obtain ⟨⟨ms₁, frames₁⟩, hrest, heq⟩ := bind_eq_ok.mp h
      cases heq
      exact List.forall_mem_cons.mpr ⟨hm, ih hrest hms⟩

/-- What answering and stamping keep, the loop of the preparation keeps. -/
theorem rounds_forall (hanswer : ∀ m tick, A m → A { m with answer := verdict env tick m.batch })
    (hstamp : ∀ m n, A m → A { m with batch := m.batch.restamp n }) {lsn fuel tick : ℕ}
    {ms ms' : List Member} {r : Result (List Bytes)}
    (h : rounds env lsn fuel tick ms = some (r, ms')) (hms : ∀ m ∈ ms, A m) :
    ∀ m ∈ ms', A m := by
  induction fuel generalizing tick ms with
  | zero => cases h
  | succ fuel ih =>
    have hsettled : ∀ m ∈ (settle env tick ms).1, A m := settle_forall hanswer hms
    rw [rounds] at h
    dsimp only at h
    split at h
    · cases h
      exact hsettled
    · next ms₁ frames heq =>
      have hstamped := stamp_forall hstamp heq hsettled
      split at h
      · cases h
        exact hstamped
      · exact ih h hstamped

/-- Publishing the members of a group keeps what publishing a batch keeps. -/
theorem publishAll_keeps
    (hpublish : ∀ (b : Prepared) n db, B b → db.state.lsn < n → I db → I (b.publishState n db))
    {lsn : ℕ} {ms : List Member} {db : Database} (hms : ∀ m ∈ ms, B m.batch)
    (hlsn : db.state.lsn ≤ lsn) (hdb : I db) : I (publishAll lsn ms db).2 := by
  induction ms generalizing lsn db with
  | nil => exact hdb
  | cons m ms ih =>
    obtain ⟨hm, hms⟩ := List.forall_mem_cons.mp hms
    rw [publishAll]
    split
    · exact ih hms le_rfl (hpublish m.batch (lsn + 1) db hm (Nat.lt_succ_of_le hlsn) hdb)
    · exact ih hms hlsn hdb

/-- **What its parts keep, a group commit keeps.** -/
theorem commitGroup_keeps {checkpoint : Database → Result Unit × Database} {write : WalWrite}
    {tick : ℕ} {batches : List Prepared} {answers : List (Option (Result ℕ))} {db db' : Database}
    (hcheckpoint : ∀ db, I db → I (checkpoint db).2)
    (hrebind : ∀ (root : Checkpoint) (b b' : Prepared), b.Rebound env root b' → B b → B b')
    (hstamp : ∀ b n, B b → B (b.restamp n))
    (hlog : ∀ db wal walBytes poisoned, I db → I { db with wal, walBytes, poisoned })
    (hpublish : ∀ (b : Prepared) n db, B b → db.state.lsn < n → I db → I (b.publishState n db))
    (hread : ∀ db, I db → I { db with published := db.state })
    (h : commitGroup env checkpoint write tick batches db = (answers, db'))
    (hbatches : ∀ b ∈ batches, B b) (hdb : I db) : I db' := by
  unfold commitGroup at h
  dsimp only at h
  split at h
  · cases h
    exact hdb
  have hdue (due : Prop) [Decidable due] : I (if due then checkpoint db else (.ok (), db)).2 := by
    split
    · exact hcheckpoint db hdb
    · exact hdb
  have hdb₁ := hdue (¬ db.sharedMode ∧ db.options.checkpointBytes ≤ db.wal.length ∧
    db.state.root.manifest.lsn < db.state.lsn)
  generalize (if ¬ db.sharedMode ∧ db.options.checkpointBytes ≤ db.wal.length ∧
    db.state.root.manifest.lsn < db.state.lsn then checkpoint db else (.ok (), db)) = due at h hdb₁
  obtain ⟨_ | _, db₁⟩ := due
  · cases h
    exact hdb₁
  dsimp only at h
  split at h
  · cases h
    exact hdb₁
  · next ms tick₁ hms =>
  obtain ⟨bs, rfl, hbound⟩ := rebindGroup_spec hms
  have hbs : ∀ b ∈ bs, B b := by
    clear h hms
    induction hbound with
    | nil => exact hbatches
    | cons hb _ ih =>
      obtain ⟨hhead, hbatches⟩ := List.forall_mem_cons.mp hbatches
      exact List.forall_mem_cons.mpr ⟨hrebind _ _ _ hb hhead, ih hbatches⟩
  have hfresh : ∀ m ∈ bs.map (fun batch => (⟨batch, none⟩ : Member)), B m.batch :=
    List.forall_mem_map.mpr hbs
  split at h
  · cases h
    exact hdb₁
  · cases h
    exact hdb₁
  · next frames ms' hrounds =>
    have hms' := @rounds_forall env (fun m => B m.batch) (fun _ _ h => h)
      (fun m n h => hstamp m.batch n h) _ _ _ _ _ _ hrounds hfresh
    unfold writeGroup at h
    dsimp only at h
    split at h
    · cases h
      exact hdb₁
    split at h
    · cases h
      exact hdb₁
    split at h
    · cases h
      exact hlog db₁ _ db₁.walBytes true hdb₁
    · cases h
      exact hread _ (publishAll_keeps hpublish hms' le_rfl (hlog db₁ _ _ db₁.poisoned hdb₁))

end Commit

/-- **A settled database**: everything in memory is sealed, and readers are not ahead. -/
structure Database.Settled (db : Database) : Prop where
  state : Each EntityData.Sealed db.state.overlay
  tail : ∀ tail, db.checkpointTail = some tail → Each EntityData.Sealed tail
  published : Each EntityData.Sealed db.published.overlay
  behind : db.published.lsn ≤ db.state.lsn

namespace Database.Settled

/-- Publishing a batch keeps a database settled. -/
theorem publishState {db : Database} (h : db.Settled) {b : Prepared} (hb : b.Ordered) {n : ℕ}
    (hn : db.state.lsn < n) : (b.publishState n db).Settled where
  state := h.state.sealOver hb
  tail tail htail := by
    obtain ⟨tail₀, htail₀, rfl⟩ := Option.map_eq_some_iff.mp htail
    exact (h.tail tail₀ htail₀).sealOver hb
  published := h.published
  behind := h.behind.trans hn.le

/-- So does a step of the maintenance, which moves no sequence. -/
theorem maintain {db db' : Database} (h : db.Settled) (hstep : Maintains db db') :
    db'.Settled ∧ db'.state.lsn = db.state.lsn := by
  cases hstep with
  | capture =>
    refine ⟨⟨h.state, ?_, h.published, h.behind⟩, rfl⟩
    rintro tail ⟨⟩
    exact each_empty
  | install hopen htail =>
    refine ⟨⟨h.tail _ htail, ?_, h.tail _ htail, le_rfl⟩, rfl⟩
    rintro tail ⟨⟩
  | abandon =>
    refine ⟨⟨h.state, ?_, h.published, h.behind⟩, rfl⟩
    rintro tail ⟨⟩
  | fail => exact ⟨⟨h.state, h.tail, h.published, h.behind⟩, rfl⟩

/-- And so does a group commit, which moves it forward. -/
theorem commit {env : Env} {checkpoint : Database → Result Unit × Database} {write : WalWrite}
    {tick : ℕ} {batches : List Prepared} {answers : List (Option (Result ℕ))} {db db' : Database}
    (hcheckpoint : ∀ db, Relation.ReflTransGen Maintains db (checkpoint db).2)
    (hcommit : commitGroup env checkpoint write tick batches db = (answers, db'))
    (hbatches : ∀ b ∈ batches, b.Ordered) (h : db.Settled) :
    db'.Settled ∧ db.state.lsn ≤ db'.state.lsn := by
  refine commitGroup_keeps (I := fun d => d.Settled ∧ db.state.lsn ≤ d.state.lsn)
    (B := Prepared.Ordered) (fun d hd => ?_) (fun _ _ _ hbound hb => hbound.ordered hb)
    (fun b n hb => hb.restamp n) (fun d wal walBytes poisoned hd => ?_)
    (fun b n d hb hn hd => ?_) (fun d hd => ?_) hcommit hbatches ⟨h, le_rfl⟩
  · have hsteps := hcheckpoint d
    generalize (checkpoint d).2 = d' at hsteps
    induction hsteps with
    | refl => exact hd
    | tail _ hstep ih =>
      obtain ⟨hsettled, hlsn⟩ := ih.1.maintain hstep
      exact ⟨hsettled, ih.2.trans hlsn.ge⟩
  · exact ⟨⟨hd.1.state, hd.1.tail, hd.1.published, hd.1.behind⟩, hd.2⟩
  · exact ⟨hd.1.publishState hb hn, hd.2.trans hn.le⟩
  · exact ⟨⟨hd.1.state, hd.1.tail, hd.1.state, le_rfl⟩, hd.2⟩

end Database.Settled

/-! ### Recovery -/

/-- What a recovery transaction has staged is ordered. -/
theorem replayOps_keeps {env : Env} {I : Staging → Prop} (hI : Staging.Invariant env I)
    {operations : List Operation} {t t' : Transaction} (ht : ∀ s, t.value = some s → I s)
    (h : replayOps env operations t = .ok t') : ∀ s, t'.value = some s → I s := by
  induction operations generalizing t with
  | nil =>
    cases h
    exact ht
  | cons operation operations ih =>
    rw [replayOps] at h
    split at h
    · next t₁ hwith =>
      exact ih (hI.with (hI.keeps_run operation) ht hwith) h
    · cases h

/-- **A record that is replayed** lays ordered entities over the view. -/
theorem replayTransaction_sealed {env : Env} {options : Options} {view view' : ReadState}
    {lsn : ℕ} {payload : Bytes} (hview : Each EntityData.Sealed view.overlay)
    (h : replayTransaction env options view lsn payload = .ok view') :
    Each EntityData.Sealed view'.overlay := by
  obtain ⟨t, hnew, h⟩ := bind_eq_ok.mp h
  obtain ⟨operations, -, h⟩ := bind_eq_ok.mp h
  obtain ⟨t', hreplay, h⟩ := bind_eq_ok.mp h
  obtain ⟨staging, htake, h⟩ := bind_eq_ok.mp h
  cases h
  obtain ⟨s₀, hs₀, hvalue⟩ := Transaction.new_value hnew
  obtain ⟨s₁, hvalue', rfl⟩ := Transaction.take_value htake
  obtain ⟨_, -, hs₀⟩ := bind_eq_ok.mp hs₀
  cases hs₀
  obtain ⟨-, hstaged⟩ := replayOps_keeps (EntityData.StagedOn.invariant hview env)
    (fun s hs => by
      rw [hvalue] at hs
      cases hs
      exact ⟨rfl, each_empty⟩) hreplay s₁ hvalue'
  exact hview.sealOver (hstaged.mono fun _ h => h.ordered)

/-- What has been opened is settled. -/
theorem settled_open {env : Env} {files : Root → Files} {options : Options} {dir dir' : Directory}
    {db : Database} (h : openDatabase env files options dir = .ok (db, dir')) : db.Settled := by
  obtain ⟨_, -, h⟩ := bind_eq_ok.mp h
  obtain ⟨opened, hopened, heq⟩ := bind_eq_ok.mp h
  cases heq
  have hview : Each EntityData.Sealed (opened.view : ReadState).overlay :=
    openWithOptions_keeps (P := fun view : ReadState => Each EntityData.Sealed view.overlay)
      (fun _ _ _ _ => replayTransaction_sealed) (fun _ => each_empty) hopened
  refine ⟨hview, ?_, hview, le_rfl⟩
  rintro tail ⟨⟩

/-- **All along a database is settled**, and so are the views it has published, none of which is
ahead of it. -/
theorem Life.settled {views : List ReadState} {db : Database} (h : Life views db) :
    db.Settled ∧ ∀ view ∈ views, Each EntityData.Sealed view.overlay ∧ view.lsn ≤ db.state.lsn := by
  have hcons {views : List ReadState} {db db' : Database} (hdb' : db'.Settled)
      (hle : db.state.lsn ≤ db'.state.lsn)
      (hviews : ∀ view ∈ views, Each EntityData.Sealed view.overlay ∧ view.lsn ≤ db.state.lsn) :
      ∀ view ∈ db'.published :: views,
        Each EntityData.Sealed view.overlay ∧ view.lsn ≤ db'.state.lsn :=
    List.forall_mem_cons.mpr ⟨⟨hdb'.published, hdb'.behind⟩,
      fun view hview => ⟨(hviews view hview).1, (hviews view hview).2.trans hle⟩⟩
  induction h with
  | opened hopen =>
    have hsettled := settled_open hopen
    exact ⟨hsettled, List.forall_mem_singleton.mpr ⟨hsettled.published, hsettled.behind⟩⟩
  | share h ih =>
    obtain ⟨hdb, hviews⟩ := ih
    exact ⟨⟨hdb.state, hdb.tail, hdb.published, hdb.behind⟩, hviews⟩
  | maintain h hstep ih =>
    obtain ⟨hdb', hlsn⟩ := ih.1.maintain hstep
    exact ⟨hdb', hcons hdb' hlsn.ge ih.2⟩
  | commit h hbatches hcheckpoint hcommit ih =>
    have hordered : ∀ b ∈ _, Prepared.Ordered b := fun b hb => by
      obtain ⟨view, hview, hover⟩ := hbatches b hb
      exact (hover.stagedOn (ih.2 view hview).1).2.mono fun _ h => h.ordered
    obtain ⟨hdb', hle⟩ := ih.1.commit hcheckpoint hcommit hordered
    exact ⟨hdb', hcons hdb' hle ih.2⟩

end EveDB.Store
