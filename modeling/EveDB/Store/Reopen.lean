import EveDB.Recovery.Behaviour
import EveDB.Recovery.Safety
import EveDB.Recovery.Transport
import EveDB.Store.Aborted

/-!
# Reopening a database

The recovery path of `Database::open_with_options` over the engine of this development
(`engine`): a record of the log is decoded, its operations run in a recovery transaction, and
what they stage is published under the sequence of the record.

A recovery looks at options, limits, counters and clocks like any other work, but nothing it
does depends on them (`recovery_ignores_options`). What a recovery transaction stages depends on
its base view and its operations alone, because nothing is refused (`Staging.run_simulates`),
and its lease does not run out (`Transaction.with_unlimited`).
-/

namespace EveDB.Store

open Fallible

/-! ### Recovery transactions -/

/-- The surroundings of a recovery: counters of its own, and nobody else to close the
database. -/
def Env.forRecovery (env : Env) (limits : Limits) : Env :=
  { env with
    limits
    recovering := true
    poisoned := fun _ => false
    poisoned_mono := fun _ h => h }

theorem Env.recovers_forRecovery (env : Env) (limits : Limits) :
    (env.forRecovery limits).Recovers := ⟨rfl, fun _ => rfl⟩

variable (env : Env)

/-- Runs the operations of a log record. -/
def replayOps : List Operation → Transaction → Result Transaction
  | [], tx => .ok tx
  | operation :: operations, tx =>
    match (Transaction.«with» env (Staging.run env operation)).run tx with
    | (.ok (), tx) => replayOps operations tx
    | (.error e, _) => corrupt ("invalid WAL operation: " ++ e.display)

/-- **Replays a record of the log**: runs its operations in a recovery transaction, and
publishes it. -/
def replayTransaction (options : Options) (view : ReadState) (lsn : ℕ) (payload : Bytes) :
    Result ReadState := do
  let tx ← Transaction.new env view options true ⟨none, none⟩ 0
  let operations ← decodeOps payload
  let tx ← replayOps env operations tx
  let staging ← tx.take env
  return (staging.prepare none).publishView lsn view

/-- **The engine.** What the files of a manifest hold is given. -/
def engine (files : Root → Files) (options : Options) : Engine where
  View := ReadState
  load root :=
    { root := { manifest := root, files := files root }, catalog := root.catalog, overlay := ∅
      lsn := root.lsn }
  replay := replayTransaction env options

/-- **Opens a database.** -/
def openDatabase (files : Root → Files) (options : Options) (dir : Directory) :
    Result (Database × Directory) := do
  options.validate (env.now 0)
  let opened ← openWithOptions (engine (env.forRecovery options.limits) files options) dir
  let active := opened.dir.segments.find? fun segment => segment.number = opened.active
  let view : ReadState := opened.view
  return ({ wal := active.elim [] Segment.bytes, walBytes := opened.walBytes, sharedMode := false
            checkpointTail := none, state := view, published := view, poisoned := false
            options }, opened.dir)

/-! ### A lease without limits -/

/-- The lease does not run out. -/
def Transaction.Unlimited (t : Transaction) : Prop :=
  t.deadline = none ∧ t.idle = none ∧ t.operation = none

/-- **Working on a lease without limits** is working on what it holds. -/
theorem Transaction.with_unlimited {α : Type} (stage : Stage α) {t : Transaction} {s : Staging}
    (hlimits : t.Unlimited) (hvalue : t.value = some s) :
    ∃ t', (Transaction.«with» env stage).run t = ((stage.run s.looked).1, t') ∧
      t'.Unlimited ∧ t'.value = some (stage.run s.looked).2.looked := by
  obtain ⟨hdeadline, hidle, hoperation⟩ := hlimits
  have hrun : t.runOut (env.now s.ticks) = false := by
    rw [Transaction.runOut, hdeadline, hidle]
    rfl
  have hover (start now : ℕ) : t.overrun start now = false := by
    rw [Transaction.overrun, hdeadline, hoperation]
    rfl
  change ∃ t', Transaction.«with» env stage t = _ ∧ _
  unfold Transaction.«with»
  rw [hvalue]
  dsimp only
  rw [hrun, if_neg Bool.false_ne_true, hover, if_neg Bool.false_ne_true]
  exact ⟨_, rfl, ⟨hdeadline, hidle, hoperation⟩, rfl⟩

/-- What such a lease holds can be taken. -/
theorem Transaction.take_unlimited {t : Transaction} {s : Staging} (hlimits : t.Unlimited)
    (hvalue : t.value = some s) : t.take env = .ok s.looked := by
  obtain ⟨hdeadline, hidle, -⟩ := hlimits
  have hrun : t.runOut (env.now s.ticks) = false := by
    rw [Transaction.runOut, hdeadline, hidle]
    rfl
  unfold Transaction.take
  rw [hvalue]
  dsimp only
  rw [hrun, if_neg Bool.false_ne_true]

/-! ### Two recoveries -/

variable {env} {env' : Env} {options options' : Options}

theorem Mirrors.looked {s t : Staging} (h : Mirrors s t) : Mirrors s.looked t.looked :=
  ⟨h.base, h.permit, h.catalog, h.staged, h.operations, h.failed⟩

/-- Two leases without limits hold the same. -/
def Alike (t u : Transaction) : Prop :=
  t.Unlimited ∧ u.Unlimited ∧ ∃ s r, t.value = some s ∧ u.value = some r ∧ Mirrors s r

/-- New recovery transactions on the same view hold the same: nothing. -/
theorem new_alike (env' : Env) (options' : Options) {view : ReadState} {t : Transaction}
    (h : Transaction.new env view options true ⟨none, none⟩ 0 = .ok t) :
    ∃ u, Transaction.new env' view options' true ⟨none, none⟩ 0 = .ok u ∧ Alike t u := by
  cases h
  refine ⟨_, rfl, ⟨rfl, rfl, rfl⟩, ⟨rfl, rfl, rfl⟩, _, _, rfl, rfl, ?_⟩
  exact ⟨rfl, rfl, rfl, rfl, rfl, rfl⟩

/-- The operations of a record replay in any recovery. -/
theorem replayOps_alike (henv' : env'.Recovers) {operations : List Operation}
    {t u t' : Transaction} (halike : Alike t u) (h : replayOps env operations t = .ok t') :
    ∃ u', replayOps env' operations u = .ok u' ∧ Alike t' u' := by
  induction operations generalizing t u with
  | nil =>
    cases h
    exact ⟨u, rfl, halike⟩
  | cons operation operations ih =>
    obtain ⟨ht, hu, s, r, hs, hr, hmirrors⟩ := halike
    obtain ⟨t₁, hrun, ht₁, hs₁⟩ :=
      Transaction.with_unlimited env (Staging.run env operation) ht hs
    obtain ⟨u₁, hrun', hu₁, hr₁⟩ :=
      Transaction.with_unlimited env' (Staging.run env' operation) hu hr
    rw [replayOps, hrun] at h
    rw [replayOps, hrun']
    rcases hstage : (Staging.run env operation).run s.looked with ⟨e | _, s₁⟩
    · rw [hstage] at h
      cases h
    · rw [hstage] at h hs₁
      obtain ⟨_, r₁, hstage', -, hmirrors₁⟩ :=
        Staging.run_simulates env henv' operation s.looked r.looked () s₁ hmirrors.looked hstage
      rw [hstage'] at hr₁
      rw [hstage']
      exact ih ⟨ht₁, hu₁, s₁.looked, r₁.looked, hs₁, hr₁, hmirrors₁.looked⟩ h

/-- **A record that replays in one recovery replays in any other**, to the same view. -/
theorem replayTransaction_alike (henv' : env'.Recovers) {view view' : ReadState} {lsn : ℕ}
    {payload : Bytes} (h : replayTransaction env options view lsn payload = .ok view') :
    replayTransaction env' options' view lsn payload = .ok view' := by
  obtain ⟨t, hnew, h⟩ := bind_eq_ok.mp h
  obtain ⟨operations, hdecode, h⟩ := bind_eq_ok.mp h
  obtain ⟨t', hreplay, h⟩ := bind_eq_ok.mp h
  obtain ⟨staging, htake, h⟩ := bind_eq_ok.mp h
  obtain ⟨u, hnew', halike⟩ := new_alike env' options' hnew
  obtain ⟨u', hreplay', ht', hu', s, r, hs, hr, hmirrors⟩ := replayOps_alike henv' halike hreplay
  rw [Transaction.take_unlimited env ht' hs] at htake
  cases htake
  refine bind_eq_ok.mpr ⟨u, hnew',
    bind_eq_ok.mpr ⟨operations, hdecode, bind_eq_ok.mpr ⟨u', hreplay',
    bind_eq_ok.mpr ⟨r.looked, Transaction.take_unlimited env' hu' hr, ?_⟩⟩⟩⟩
  cases h
  rw [pure_eq_ok]
  simp only [Prepared.publishView, Staging.prepare, Staging.looked, hmirrors.catalog,
    hmirrors.staged]

/-- Operations that have run are replayed, to the same effect. -/
theorem replayOps_of_runAll (henv' : env'.Recovers) {operations : List Operation}
    {s s' r : Staging} {t : Transaction} (hmirrors : Mirrors s r) (hlimits : t.Unlimited)
    (hvalue : t.value = some r) (hrun : (Staging.runAll env operations).run s = (.ok (), s')) :
    ∃ t' r', replayOps env' operations t = .ok t' ∧ t'.Unlimited ∧ t'.value = some r' ∧
      Mirrors s' r' := by
  induction operations generalizing s r t with
  | nil =>
    cases hrun
    exact ⟨t, r, rfl, hlimits, hvalue, hmirrors⟩
  | cons operation operations ih =>
    obtain ⟨_, s₁, hfirst, hrest⟩ := Fallible.run_bind_eq_ok.mp hrun
    obtain ⟨t₁, hwith, ht₁, hr₁⟩ :=
      Transaction.with_unlimited env' (Staging.run env' operation) hlimits hvalue
    have hlooked : Mirrors s r.looked :=
      ⟨hmirrors.base, hmirrors.permit, hmirrors.catalog, hmirrors.staged, hmirrors.operations,
        hmirrors.failed⟩
    obtain ⟨_, r₁, hstage, -, hmirrors₁⟩ :=
      Staging.run_simulates env henv' operation s r.looked () s₁ hlooked hfirst
    rw [hstage] at hwith hr₁
    obtain ⟨t', r', hreplay, hall⟩ := ih (r := r₁.looked)
      ⟨hmirrors₁.base, hmirrors₁.permit, hmirrors₁.catalog, hmirrors₁.staged,
        hmirrors₁.operations, hmirrors₁.failed⟩ ht₁ hr₁ hrest
    refine ⟨t', r', ?_, hall⟩
    rw [replayOps, hwith]
    exact hreplay

/-- **What a transaction has recorded is replayed**, to the view that has what it has staged. -/
theorem Staging.Replays.replayTransaction {view : ReadState} {s : Staging} (h : s.Replays view)
    (henv : env.Recovers) (options : Options) (hpayload : decodeOps (encodeOps s.operations) =
      .ok s.operations) (lsn : ℕ) :
    replayTransaction env options view lsn (encodeOps s.operations) =
      .ok ((s.prepare none).publishView lsn view) := by
  obtain ⟨s₀, s₁, hnew, hrun, hmirrors⟩ := h env options 0 henv
  obtain ⟨t₀, ht₀, hlimits₀, hvalue₀, hpermit⟩ :
      ∃ t₀, Transaction.new env view options true ⟨none, none⟩ 0 = .ok t₀ ∧ t₀.Unlimited ∧
        t₀.value = some s₀.looked ∧ s₀.permit = false := by
    cases hnew
    exact ⟨_, rfl, ⟨rfl, rfl, rfl⟩, rfl, rfl⟩
  have hlooked : Mirrors s₀ s₀.looked := ⟨rfl, hpermit, rfl, rfl, rfl, rfl⟩
  obtain ⟨t, r, hreplay, hlimits, hvalue, hreplayed⟩ :=
    replayOps_of_runAll henv hlooked hlimits₀ hvalue₀ hrun
  refine bind_eq_ok.mpr ⟨t₀, ht₀, bind_eq_ok.mpr ⟨_, hpayload, bind_eq_ok.mpr ⟨t, hreplay,
    bind_eq_ok.mpr ⟨r.looked, Transaction.take_unlimited env hlimits hvalue, ?_⟩⟩⟩⟩
  rw [pure_eq_ok]
  simp only [Prepared.publishView, Staging.prepare, Staging.looked, hreplayed.catalog,
    hreplayed.staged, hmirrors.catalog, hmirrors.staged]

/-- **Recovery does not depend on options.** Whatever the limits, the counters, the clocks and the
other options are, as long as the options pass validation a directory opens under all of them or
under none, and the recovered databases have the same view: the same sequence, catalog and
entities. -/
theorem recovery_ignores_options (env env' : Env) (files : Root → Files) (dir : Directory)
    (hoptions : options.validate (env.now 0) = .ok ())
    (hoptions' : options'.validate (env'.now 0) = .ok ()) :
    ((∃ r, openDatabase env files options dir = .ok r) ↔
      ∃ r, openDatabase env' files options' dir = .ok r) ∧
    ∀ db db' dir' dir'', openDatabase env files options dir = .ok (db, dir') →
      openDatabase env' files options' dir = .ok (db', dir'') →
        dir'' = dir' ∧ db' = { db with options := options' } := by
  have hmono {e e' : Env} {o o' : Options} {r : Database × Directory}
      (ho' : o'.validate (e'.now 0) = .ok ()) (h : openDatabase e files o dir = .ok r) :
      openDatabase e' files o' dir = .ok ({ r.1 with options := o' }, r.2) := by
    obtain ⟨_, -, h⟩ := bind_eq_ok.mp h
    obtain ⟨opened, hopened, heq⟩ := bind_eq_ok.mp h
    cases heq
    have hopened' : openWithOptions (engine (e'.forRecovery o'.limits) files o') dir =
        .ok opened.transport := openWithOptions_transport (fun _ _ _ _ =>
      replayTransaction_alike (Env.recovers_forRecovery e' o'.limits)) hopened
    exact bind_eq_ok.mpr ⟨(), ho', bind_eq_ok.mpr ⟨_, hopened', rfl⟩⟩
  refine ⟨⟨fun ⟨r, h⟩ => ⟨_, hmono hoptions' h⟩, fun ⟨r, h⟩ => ⟨_, hmono hoptions h⟩⟩, ?_⟩
  intro db db' dir' dir'' h h'
  have heq := hmono hoptions' h
  rw [h'] at heq
  cases heq
  exact ⟨rfl, rfl⟩

/-- A directory that has been initialized opens, whatever the engine is, with an empty view. -/
theorem open_initial (E : Engine) :
    ∃ o, openWithOptions E initializeDirectory = .ok o ∧ o.view = E.load Root.empty ∧
      o.replayed = [] := by
  obtain ⟨o, hopen, -, -, -, -, hview, hreplayed, -⟩ :=
    @open_oneSegment E (Semantics.views E) [] 1 (List.forall_mem_nil _) (Nat.zero_le _) le_rfl _ rfl
  rw [oneSegmentDirectory_nil] at hopen
  exact ⟨o, hopen, hview, hreplayed⟩

/-- Options with limits that admit next to nothing, and with automatic maintenance. -/
def loweredOptions : Options :=
  { Options.default with
    limits := { Limits.default with
      maxDecodedRecordBytes := 1, maxTransactionDecodedBytes := 1, maxReadMemoryBytes := 1
      maxScratchBytes := 1, maxTransactionBytes := 8 }
    snapshotInterval := 1
    retainEvents := some 0 }

/-- The payload of the first transaction. -/
def firstPayload : Bytes := encodeOps firstOperations

/-- The view behind it. -/
def firstView (files : Files) : ReadState :=
  ((firstStaging files).prepare none).publishView 1 (emptyView files)

set_option maxRecDepth 4000 in
/-- It is read back. -/
theorem decode_firstPayload : decodeOps firstPayload = .ok firstOperations := rfl

/-- It is replayed in any recovery. -/
theorem replay_firstPayload (files : Files) (henv : env.Recovers) (options : Options) :
    replayTransaction env options (emptyView files) 1 firstPayload = .ok (firstView files) :=
  (replays_firstStaging files).replayTransaction henv options decode_firstPayload 1

/-- The first transaction is replayed under limits that would not admit it. -/
theorem recovery_ignores_options_run : ∃ db dir', openDatabase (Env.quiet Limits.default false)
    (fun _ => Files.empty) loweredOptions (oneSegmentDirectory [firstPayload] 1) = .ok (db, dir') ∧
      db.options = loweredOptions ∧ db.state = firstView Files.empty ∧
      ((firstView Files.empty).overlay[((1, 7) : ℕ × ℕ)]?).map EntityData.current =
        some ⟨7, 1, 1, false, named "b"⟩ := by
  have hdefault : Options.default.validate 0 = .ok () := by decide
  have hlowered : loweredOptions.validate 0 = .ok () := by decide
  obtain ⟨o, ho, hview⟩ := open_singleton
    (E := engine ((Env.quiet Limits.default false).forRecovery Options.default.limits)
      (fun _ => Files.empty) Options.default) (by decide +kernel)
    (replay_firstPayload Files.empty (Env.recovers_forRecovery _ _) Options.default)
  obtain ⟨hiff, hsame⟩ := recovery_ignores_options (Env.quiet Limits.default false)
    (Env.quiet Limits.default false) (fun _ => Files.empty) (oneSegmentDirectory [firstPayload] 1)
    hdefault hlowered
  have hopen : openDatabase (Env.quiet Limits.default false) (fun _ => Files.empty) Options.default
      (oneSegmentDirectory [firstPayload] 1) = .ok _ :=
    bind_eq_ok.mpr ⟨(), hdefault, bind_eq_ok.mpr ⟨o, ho, rfl⟩⟩
  obtain ⟨⟨db, dir'⟩, hopen'⟩ := hiff.mp ⟨_, hopen⟩
  obtain ⟨-, rfl⟩ := hsame _ db _ dir' hopen hopen'
  exact ⟨_, dir', hopen', rfl, hview, rfl⟩

end EveDB.Store
