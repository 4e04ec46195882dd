import EveDB.Store.Cursor
import EveDB.Store.Packing

/-!
# Histories in batches

What a cursor delivers over all its calls, and what reading all events at once returns
(`cursor.rs`, `collect`), which is a cursor of its own whose byte bound shrinks with what the
result may still hold.

At any time what a cursor has delivered and what is left of its range (`HistoryCursor.rest`) make
up the range, unless a call failed (`HistoryCursor.delivered_append_rest`); and since every batch
has an event, what is left gets less with every call.
-/

namespace EveDB.Store

open Fallible

/-- **A view has this history of an entity**: for each version it has at most one event, the one
of the history. -/
structure ReadState.HasHistory (view : ReadState) (table id : ℕ) (history : ℕ → Event) : Prop where
  numbered : ∀ version, (history version).version = version
  recorded : ∀ event, view.Records table id event → event = history event.version
  /-- Versions are 64-bit numbers. -/
  bounded : ∀ data, (view.load table id).result = .ok (some data) → data.current.version ≤ maxU64

/-- What a cursor on a snapshot reads are the events of the history. -/
theorem ReadState.HasHistory.of_snapshot {snapshot : ReadSnapshot} {table id : ℕ}
    {history : ℕ → Event} (h : snapshot.state.HasHistory table id history)
    {cursor : HistoryCursor} (htable : cursor.table = table) (hid : cursor.id = id)
    (hsnapshot : ∀ s ∈ cursor.snapshot, s = snapshot) :
    ∀ s ∈ cursor.snapshot, ∀ event,
      s.state.Records cursor.table cursor.id event → event = history event.version := by
  intro s hs
  obtain rfl := hsnapshot s hs
  rw [htable, hid]
  exact h.recorded

/-- The events a call delivers. -/
def batchEvents : Result (Option HistoryBatch) → List Event
  | .ok (some batch) => batch.events.map Prod.fst
  | _ => []

namespace HistoryCursor

/-- A cursor after so many calls, and when it looks at its surroundings next. -/
def after (env : ReadEnv) (cursor : HistoryCursor) (tick : ℕ) : ℕ → HistoryCursor × ℕ
  | 0 => (cursor, tick)
  | n + 1 =>
    let (cursor, tick) := after env cursor tick n
    (cursor.nextBatch env tick).2

/-- What the call behind so many others returns. -/
def result (env : ReadEnv) (cursor : HistoryCursor) (tick n : ℕ) : Result (Option HistoryBatch) :=
  let (cursor, tick) := cursor.after env tick n
  (cursor.nextBatch env tick).1

/-- What so many calls deliver. -/
def delivered (env : ReadEnv) (cursor : HistoryCursor) (tick n : ℕ) : List Event :=
  (List.range n).flatMap fun i => batchEvents (cursor.result env tick i)

/-- How many versions a cursor has left. -/
def remaining (cursor : HistoryCursor) : ℕ := cursor.last + 1 - cursor.start

/-- What a cursor has left of a history. -/
def rest (cursor : HistoryCursor) (history : ℕ → Event) : List Event :=
  (List.range' cursor.start cursor.remaining).map history

/-! ### One call -/

section Calls

variable {p : Event → Prop} {cursor cursor' : HistoryCursor}
  {called : Result (Option HistoryBatch)}

theorem remaining_of_none (h : cursor.next = none) : cursor.remaining = 0 := by
  rw [remaining, start, h, Option.elim_none, Nat.sub_self]

/-- A cursor with nothing left is finished. -/
theorem next_of_remaining (h : cursor.remaining = 0) : cursor.next = none := by
  cases hnext : cursor.next with
  | none => rfl
  | some next =>
    rw [remaining, start, hnext, Option.elim_some] at h
    have := next.2
    omega

/-- A call that is not an error leaves what it does not deliver. -/
theorem Returns.rest {history : ℕ → Event}
    (h : cursor.Returns (fun e => e = history e.version) called cursor') :
    (∃ e, called = .error e) ∨
      batchEvents called ++ cursor'.rest history = cursor.rest history := by
  have hbatch {batch : HistoryBatch} {first maxEvents maxBytes : ℕ}
      (hb : batch.Continues (fun e => e = history e.version) first maxEvents maxBytes) :
      batch.events.map Prod.fst = (List.range' first batch.events.length).map history := by
    rw [← hb.versions, List.map_map]
    exact List.map_congr_left hb.events
  cases h with
  | nothing hnone =>
    right
    rw [HistoryCursor.rest, HistoryCursor.rest, remaining_of_none hnone, remaining_of_none rfl]
    rfl
  | failed e hsome => exact Or.inl ⟨e, rfl⟩
  | last batch hb hlast =>
    right
    rw [HistoryCursor.rest, HistoryCursor.rest, remaining_of_none rfl, remaining, hlast,
      Nat.add_sub_cancel_left, batchEvents, hbatch hb]
    exact List.append_nil _
  | more batch next hb hnext =>
    right
    have hle := next.2
    have hsplit : cursor.remaining = batch.events.length + (cursor.last + 1 - next.1) := by
      rw [remaining]
      omega
    rw [HistoryCursor.rest, HistoryCursor.rest, hsplit, ← List.range'_append_1, List.map_append,
      ← hnext, batchEvents, hbatch hb]
    rfl

/-- Every call that delivers something leaves less. -/
theorem Returns.remaining_lt (h : cursor.Returns p called cursor') (hsome : cursor.next ≠ none) :
    cursor'.remaining < cursor.remaining := by
  have hpos : 0 < cursor.remaining :=
    Nat.pos_of_ne_zero fun hzero => hsome (next_of_remaining hzero)
  cases h with
  | nothing hnone => exact absurd hnone hsome
  | failed e hsome => rwa [remaining_of_none rfl]
  | last batch hb hlast => rwa [remaining_of_none rfl]
  | more batch next hb hnext =>
    have hle := next.2
    have hlength := List.length_pos_iff.mpr hb.nonempty
    change cursor.last + 1 - next.1 < cursor.last + 1 - cursor.start
    omega

/-- A call that delivers nothing finishes the cursor. -/
theorem Returns.next_of_empty (h : cursor.Returns p called cursor')
    (hempty : called = .ok none ∨ ∃ e, called = .error e) : cursor'.next = none := by
  cases h with
  | nothing hnone => rfl
  | failed e hsome => rfl
  | last batch hb hlast => rfl
  | more batch next hb hnext =>
    rcases hempty with hempty | ⟨e, hempty⟩
    · cases hempty
    · cases hempty

/-- Only a finished cursor returns nothing. -/
theorem Returns.next_of_nothing (h : cursor.Returns p (.ok none) cursor') : cursor.next = none := by
  cases h with
  | nothing hnone => exact hnone

/-- A batch that is returned goes on where the cursor is. -/
theorem Returns.continues {batch : HistoryBatch}
    (h : cursor.Returns p (.ok (some batch)) cursor') :
    batch.Continues p cursor.start cursor.options.maxEvents cursor.options.maxBytes := by
  cases h with
  | last _ hb _ => exact hb
  | more _ next hb _ => exact hb

/-- What is asked of a cursor stays, and so does what it reads. -/
theorem Returns.frame (h : cursor.Returns p called cursor') :
    cursor'.table = cursor.table ∧ cursor'.id = cursor.id ∧ cursor'.options = cursor.options ∧
      ∀ snapshot ∈ cursor'.snapshot, snapshot ∈ cursor.snapshot := by
  cases h with
  | nothing hnone => exact ⟨rfl, rfl, rfl, fun _ hnone => by cases hnone⟩
  | failed e hsome => exact ⟨rfl, rfl, rfl, fun _ hnone => by cases hnone⟩
  | last batch hb hlast => exact ⟨rfl, rfl, rfl, fun _ hnone => by cases hnone⟩
  | more batch next hb hnext => exact ⟨rfl, rfl, rfl, fun _ hmem => hmem⟩

end Calls

/-! ### Many calls -/

section Runs

variable {env : ReadEnv} {cursor : HistoryCursor} {p : Event → Prop} {history : ℕ → Event}
  {tick : ℕ}

/-- Whatever has been called, the next call reads the view the cursor was opened on. -/
theorem after_frame (hp : ∀ snapshot ∈ cursor.snapshot, ∀ event,
      snapshot.state.Records cursor.table cursor.id event → p event) (n : ℕ) :
    (cursor.after env tick n).1.options = cursor.options ∧
      ∀ snapshot ∈ (cursor.after env tick n).1.snapshot, ∀ event,
        snapshot.state.Records (cursor.after env tick n).1.table
          (cursor.after env tick n).1.id event → p event := by
  induction n with
  | zero => exact ⟨rfl, hp⟩
  | succ n ih =>
    obtain ⟨hoptions, hrecorded⟩ := ih
    obtain ⟨htable, hid, hoptions', hsnapshot⟩ :=
      (nextBatch_returns env _ (cursor.after env tick n).2 hrecorded).frame
    refine ⟨hoptions'.trans hoptions, fun snapshot hmem => ?_⟩
    change ∀ event, snapshot.state.Records
      ((cursor.after env tick n).1.nextBatch env (cursor.after env tick n).2).2.1.table
      ((cursor.after env tick n).1.nextBatch env (cursor.after env tick n).2).2.1.id event → p event
    rw [htable, hid]
    exact hrecorded snapshot (hsnapshot snapshot hmem)

/-- What a call in a run returns and leaves. -/
theorem result_returns (hp : ∀ snapshot ∈ cursor.snapshot, ∀ event,
      snapshot.state.Records cursor.table cursor.id event → p event) (n : ℕ) :
    (cursor.after env tick n).1.Returns p (cursor.result env tick n)
      (cursor.after env tick (n + 1)).1 :=
  nextBatch_returns env _ _ (after_frame hp n).2

theorem delivered_succ (n : ℕ) : cursor.delivered env tick (n + 1) =
    cursor.delivered env tick n ++ batchEvents (cursor.result env tick n) := by
  rw [delivered, delivered, List.range_succ, List.flatMap_append, List.flatMap_singleton]

/-- Nothing has to be known of a view to know how far a call gets. -/
theorem result_advances (n : ℕ) :
    (cursor.after env tick n).1.Returns (fun _ => True) (cursor.result env tick n)
      (cursor.after env tick (n + 1)).1 :=
  result_returns (fun _ _ _ _ => trivial) n

/-- A finished cursor stays so, and returns nothing. -/
theorem after_of_finished {n m : ℕ} (hnm : n ≤ m) (h : (cursor.after env tick n).1.next = none) :
    (cursor.after env tick m).1.next = none ∧ cursor.result env tick m = .ok none := by
  have hnothing {cursor cursor' : HistoryCursor} {called : Result (Option HistoryBatch)}
      (hreturns : cursor.Returns (fun _ => True) called cursor') (hnone : cursor.next = none) :
      called = .ok none := by
    have hzero := remaining_of_none hnone
    rw [remaining] at hzero
    cases hreturns with
    | nothing _ => rfl
    | failed e hsome => exact absurd hnone hsome
    | last batch hb hlast =>
      have hlength := List.length_pos_iff.mpr hb.nonempty
      omega
    | more batch next hb hnext =>
      have hle := next.2
      omega
  induction m, hnm using Nat.le_induction with
  | base => exact ⟨h, hnothing (result_advances n) h⟩
  | succ m _ ih =>
    have hnone := (result_advances m).next_of_empty (Or.inl ih.2)
    exact ⟨hnone, hnothing (result_advances (m + 1)) hnone⟩

/-- Every call leaves less, until nothing is left. -/
theorem remaining_after (n : ℕ) :
    (cursor.after env tick n).1.remaining ≤ cursor.remaining - n := by
  induction n with
  | zero => exact le_rfl
  | succ n ih =>
    by_cases hnone : (cursor.after env tick n).1.next = none
    · rw [remaining_of_none (after_of_finished (Nat.le_succ n) hnone).1]
      exact Nat.zero_le _
    · have hless := (result_advances n).remaining_lt hnone
      omega

/-- **What has been delivered and what is left make up the range**, unless a call failed; and then
nothing more is delivered. -/
theorem delivered_append_rest (hhistory : ∀ snapshot ∈ cursor.snapshot, ∀ event,
      snapshot.state.Records cursor.table cursor.id event → event = history event.version)
    (n : ℕ) :
    cursor.delivered env tick n ++ (cursor.after env tick n).1.rest history =
        cursor.rest history ∨
      ((∃ i < n, ∃ e, cursor.result env tick i = .error e) ∧
        (cursor.after env tick n).1.next = none ∧
        cursor.delivered env tick n <+: cursor.rest history) := by
  induction n with
  | zero => exact Or.inl rfl
  | succ n ih =>
    rw [delivered_succ]
    rcases ih with hsplit | ⟨⟨i, hi, hfailed⟩, hnone, hprefix⟩
    · have hreturns := @result_returns env cursor _ tick hhistory n
      rcases hreturns.rest with ⟨e, he⟩ | hrest
      · refine Or.inr ⟨⟨n, Nat.lt_succ_self n, e, he⟩, hreturns.next_of_empty (Or.inr ⟨e, he⟩), ?_⟩
        rw [he, ← hsplit]
        exact (List.append_nil _).symm ▸ List.prefix_append _ _
      · left
        rw [List.append_assoc, hrest, hsplit]
    · obtain ⟨hnone', hresult⟩ := after_of_finished le_rfl hnone
      rw [hresult]
      refine Or.inr ⟨⟨i, Nat.lt_succ_of_lt hi, hfailed⟩,
        (after_of_finished (Nat.le_succ n) hnone).1, ?_⟩
      exact (List.append_nil _).symm ▸ hprefix

end Runs

end HistoryCursor

/-! ### Opening a cursor -/

/-- The range of versions a view has of an entity. -/
def ReadState.Retains (view : ReadState) (table id base current : ℕ) : Prop :=
  ∃ data, (view.load table id).result = .ok (some data) ∧ data.base.version = base ∧
    data.current.version = current

theorem checkRequested_ok {available : Option ℕ} {base current requested : ℕ}
    (h : checkRequested available base current requested = .ok ()) :
    (∃ first, available = some first ∧ first ≤ requested) ∧ requested ≤ current := by
  unfold checkRequested at h
  split at h
  · cases h
  · next hchecks =>
    obtain ⟨hfirst, hlast⟩ := not_or.mp hchecks
    refine ⟨?_, Nat.le_of_not_lt hlast⟩
    cases available with
    | none => exact absurd rfl hfirst
    | some first => exact ⟨first, rfl, Nat.le_of_not_lt fun hlt => hfirst (decide_eq_true hlt)⟩

section Opening

variable {env : ReadEnv} {snapshot : ReadSnapshot} {table id i j : ℕ} {options : HistoryOptions}
  {cursor : HistoryCursor}

/-- **A cursor that opens** reads the snapshot, and has the range that was requested of it, within
what the view retains. -/
theorem ReadSnapshot.history_ok
    (hbounded : ∀ data, (snapshot.state.load table id).result = .ok (some data) →
      data.current.version ≤ maxU64)
    (h : (snapshot.history env table id options).run i = (.ok cursor, j)) :
    ∃ base current, snapshot.state.Retains table id base current ∧
      0 < options.maxEvents ∧ 0 < options.maxBytes ∧
      (∀ requested, options.firstVersion = some requested ∨ options.lastVersion = some requested →
        base + 1 ≤ requested ∧ requested ≤ current) ∧
      (∀ first last, options.firstVersion = some first → options.lastVersion = some last →
        first ≤ last) ∧
      cursor.table = table ∧ cursor.id = id ∧ (∀ s ∈ cursor.snapshot, s = snapshot) ∧
      cursor.options.maxEvents = min options.maxEvents env.limits.maxHistoryBatchEvents ∧
      cursor.options.maxBytes = min options.maxBytes env.limits.maxHistoryBatchBytes ∧
      cursor.remaining =
        options.lastVersion.getD current + 1 - options.firstVersion.getD (base + 1) ∧
      (cursor.remaining ≠ 0 → cursor.start = options.firstVersion.getD (base + 1)) := by
  unfold ReadSnapshot.history at h
  obtain ⟨_, k, -, h⟩ := run_bind_eq_ok.mp h
  split at h
  · cases h
  · next hpositive =>
    obtain ⟨hevents, hbytes⟩ := not_or.mp hpositive
    obtain ⟨⟨base, current⟩, k, hrange, h⟩ := run_bind_eq_ok.mp h
    obtain ⟨_, k, -, h⟩ := run_bind_eq_ok.mp h
    obtain ⟨_, k, hchecked, h⟩ := run_bind_eq_ok.mp h
    have hretains := ReadSnapshot.retainedRange_ok hrange
    obtain ⟨data, hdata, rfl, rfl⟩ := hretains
    have hmax := hbounded data hdata
    -- the versions that were requested are available
    have hrequested (requested : ℕ) (h : options.firstVersion = some requested ∨
        options.lastVersion = some requested) :
        ((∃ first, (checkedAdd data.base.version 1).filter (fun first =>
            first ≤ data.current.version) = some first ∧ first ≤ requested) ∧
          requested ≤ data.current.version) := by
      refine checkRequested_ok (forM_eq_ok (Prod.ext_iff.mp hchecked).1 requested ?_)
      rcases h with h | h
      · exact List.mem_append_left _ (Option.mem_toList.mpr h)
      · exact List.mem_append_right _ (Option.mem_toList.mpr h)
    refine ⟨_, _, ⟨data, hdata, rfl, rfl⟩, Nat.pos_of_ne_zero hevents,
      Nat.pos_of_ne_zero hbytes, fun requested h => ?_, ?_⟩
    · obtain ⟨⟨first, hfirst, hle⟩, hcurrent⟩ := hrequested requested h
      obtain ⟨hfirst, -⟩ := Option.filter_eq_some_iff.mp hfirst
      obtain ⟨rfl, -⟩ := checkedAdd_eq_some.mp hfirst
      exact ⟨hle, hcurrent⟩
    · split at h
      · next hnone =>
        cases h
        obtain ⟨hfirst, havailable⟩ := Option.or_eq_none_iff.mp hnone
        have hlast : options.lastVersion = none := by
          cases hlast : options.lastVersion with
          | none => rfl
          | some requested =>
            obtain ⟨⟨first, hfirst, -⟩, -⟩ := hrequested requested (Or.inr hlast)
            rw [havailable] at hfirst
            cases hfirst
        have hempty : data.current.version < data.base.version + 1 := by
          by_contra hle
          have hsome : checkedAdd data.base.version 1 = some (data.base.version + 1) :=
            checkedAdd_eq_some.mpr ⟨rfl, by omega⟩
          rw [hsome, Option.filter_some, if_pos (decide_eq_true (Nat.le_of_not_lt hle))]
            at havailable
          cases havailable
        refine ⟨fun first last hsome => ?_, rfl, rfl,
          fun _ hmem => absurd hmem (Option.not_mem_none _), rfl, rfl, ?_, ?_⟩
        · exact absurd (hfirst.symm.trans hsome) (Option.some_ne_none _).symm
        · rw [HistoryCursor.remaining_of_none rfl, hfirst, hlast]
          exact (Nat.sub_eq_zero_of_le hempty).symm
        · exact fun hne => absurd (HistoryCursor.remaining_of_none rfl) hne
      · next first hsome =>
        dsimp only at h
        split at h
        · next hle =>
          cases h
          have hfirst : first = options.firstVersion.getD (data.base.version + 1) := by
            rcases Option.or_eq_some_iff.mp hsome with hfirst | ⟨hnone, havailable⟩
            · rw [hfirst]
              rfl
            · obtain ⟨havailable, -⟩ := Option.filter_eq_some_iff.mp havailable
              rw [hnone]
              exact (checkedAdd_eq_some.mp havailable).1
          refine ⟨fun first last hsome hlast => ?_, rfl, rfl,
            fun _ hmem => (Option.some.inj hmem).symm, rfl, rfl, ?_, ?_⟩
          · rwa [hfirst, hsome, hlast] at hle
          · rw [← hfirst]
            rfl
          · exact fun _ => hfirst
        · cases h

end Opening

/-! ### All events at once -/

/-- A cursor whose batches are bounded anew. -/
def HistoryCursor.bounded (cursor : HistoryCursor) (maxBytes : ℕ) : HistoryCursor :=
  { cursor with options := { cursor.options with maxBytes } }

/-- Every call that delivers something leaves less, whatever the view is. -/
theorem HistoryCursor.remaining_lt_of_nextBatch {env : ReadEnv} (cursor : HistoryCursor)
    {cursor' : HistoryCursor} {called : Result (Option HistoryBatch)} {i j : ℕ}
    (h : cursor.nextBatch env i = (called, cursor', j)) (hsome : cursor.next ≠ none) :
    cursor'.remaining < cursor.remaining := by
  have hreturns := cursor.nextBatch_returns (p := fun _ => True) env i fun _ _ _ _ => trivial
  rw [h] at hreturns
  exact hreturns.remaining_lt hsome

/-- The error of a batch that is bounded by what the result may still hold. -/
def collectError (limits : Limits) (remaining : ℕ) : Error → Error
  | .limitExceeded resource limit =>
    if resource = "history batch bytes" ∧ remaining ≤ limits.maxHistoryBatchBytes then
      .limitExceeded "read result bytes" limits.maxReadResultBytes
    else .limitExceeded resource limit
  | e => e

/-- Reads batches until the cursor is finished, behind so many bytes. -/
def collectBatches (env : ReadEnv) (deadline bytes : ℕ) (cursor : HistoryCursor) (tick : ℕ) :
    Result (List HistoryBatch) × ℕ :=
  if _hfinished : cursor.next = none then (.ok [], tick)
  else
    match (env.checkDeadline deadline).run tick with
    | (.error e, tick) => (.error e, tick)
    | (.ok (), tick) =>
      let remaining := env.limits.maxReadResultBytes - bytes
      if remaining = 0 then
        (.error (.limitExceeded "read result bytes" env.limits.maxReadResultBytes), tick)
      else
        let bounded := cursor.bounded (min remaining env.limits.maxHistoryBatchBytes)
        match _hcall : bounded.nextBatch env tick with
        | (.error e, _, tick) => (.error (collectError env.limits remaining e), tick)
        | (.ok none, _, tick) => (.ok [], tick)
        | (.ok (some batch), next, tick) =>
          match check "read result bytes" bytes batch.bytes env.limits.maxReadResultBytes with
          | .error e => (.error e, tick)
          | .ok () =>
            let (batches, tick) := collectBatches env deadline (bytes + batch.bytes) next tick
            (batches.map (batch :: ·), tick)
termination_by cursor.remaining
decreasing_by exact bounded.remaining_lt_of_nextBatch _hcall _hfinished

/-- **Reads all events of an entity.** -/
def ReadSnapshot.events (snapshot : ReadSnapshot) (env : ReadEnv) (table id : ℕ) :
    Looking (List Event) :=
  snapshot.withState env fun _ last => do
    let cursor ← snapshot.history env table id
      { HistoryOptions.default with maxBytes := env.limits.maxHistoryBatchBytes }
    let batches ← collectBatches env last 0 { cursor with deadline := some last }
    let count := (batches.map fun batch => batch.events.length).sum
    if maxU64 < count * eventSize then Fallible.lift (corrupt "read result size overflow")
    else do
      env.grow (count * eventSize)
      env.reserve "cannot allocate history result"
      env.reserve "cannot allocate result ownership"
      return batches.flatMap fun batch => batch.events.map Prod.fst

section Collecting

variable {env : ReadEnv} {history : ℕ → Event} {deadline : ℕ}

/-- **Batches that are collected are the rest of the range.** -/
theorem collectBatches_ok {bytes i j : ℕ} {cursor : HistoryCursor} {batches : List HistoryBatch}
    (hhistory : ∀ snapshot ∈ cursor.snapshot, ∀ event,
      snapshot.state.Records cursor.table cursor.id event → event = history event.version)
    (h : collectBatches env deadline bytes cursor i = (.ok batches, j)) :
    (batches.flatMap fun batch => batch.events.map Prod.fst) = cursor.rest history := by
  induction hn : cursor.remaining using Nat.strong_induction_on
    generalizing cursor bytes i j batches with
  | _ n ih =>
    rw [collectBatches] at h
    split at h
    · next hfinished =>
      cases h
      rw [HistoryCursor.rest, HistoryCursor.remaining_of_none hfinished]
      rfl
    · next hnext =>
      split at h
      · cases h
      · next tick _ =>
        dsimp only at h
        split at h
        · cases h
        · have hreturns := HistoryCursor.nextBatch_returns env (cursor.bounded
            (min (env.limits.maxReadResultBytes - bytes) env.limits.maxHistoryBatchBytes)) tick
            hhistory
          split at h
          · cases h
          · next hcall =>
            rw [hcall] at hreturns
            cases hreturns with
            | nothing hnone => exact absurd hnone hnext
          · next batch cursor' tick' hcall =>
            have hless := HistoryCursor.remaining_lt_of_nextBatch _ hcall hnext
            rw [hcall] at hreturns
            split at h
            · cases h
            · obtain ⟨hmapped, -⟩ := Prod.ext_iff.mp h
              obtain ⟨batches', hbatches, rfl⟩ := map_eq_ok.mp hmapped
              obtain ⟨htable, hid, -, hsnapshot⟩ := hreturns.frame
              have hrest := ih cursor'.remaining (hn ▸ hless) (fun snapshot hmem => by
                rw [htable, hid]
                exact hhistory snapshot (hsnapshot snapshot hmem)) (Prod.ext hbatches rfl) rfl
              rcases hreturns.rest with ⟨e, he⟩ | hsplit
              · cases he
              · rw [List.flatMap_cons, hrest]
                exact hsplit

/-- **All events that are returned are all events that are retained.** -/
theorem ReadSnapshot.events_ok {snapshot : ReadSnapshot} {table id i j : ℕ} {events : List Event}
    (hhistory : snapshot.state.HasHistory table id history)
    (h : (snapshot.events env table id).run i = (.ok events, j)) :
    ∃ base current, snapshot.state.Retains table id base current ∧
      events = (List.range' (base + 1) (current - base)).map history := by
  obtain ⟨last, k, l, h⟩ := ReadSnapshot.withState_ok h
  obtain ⟨cursor, k, hopen, h⟩ := run_bind_eq_ok.mp h
  obtain ⟨batches, l, hbatches, h⟩ := run_bind_eq_ok.mp h
  have hevents : events = batches.flatMap fun batch => batch.events.map Prod.fst := by
    dsimp only at h
    split at h
    · cases h
    · obtain ⟨_, k, -, h⟩ := run_bind_eq_ok.mp h
      obtain ⟨_, k, -, h⟩ := run_bind_eq_ok.mp h
      obtain ⟨_, k, -, h⟩ := run_bind_eq_ok.mp h
      cases h
      rfl
  obtain ⟨base, current, hretains, -, -, -, -, htable, hid, hsnapshot, -, -, hremaining, hstart⟩ :=
    ReadSnapshot.history_ok hhistory.bounded hopen
  have hrest : events = cursor.rest history :=
    hevents.trans (@collectBatches_ok env history last 0 k l { cursor with deadline := some last }
      batches (hhistory.of_snapshot htable hid hsnapshot) hbatches)
  refine ⟨base, current, hretains, hrest.trans ?_⟩
  have hremaining : cursor.remaining = current - base := hremaining.trans (by
    change current + 1 - (base + 1) = _
    omega)
  rw [HistoryCursor.rest, hremaining]
  by_cases hzero : current - base = 0
  · rw [hzero]
    rfl
  · rw [hstart (by rwa [hremaining])]
    rfl

end Collecting

/-! ### What is delivered -/

/-- Limits that validate let a batch have an event. -/
theorem historyBatchEvents_of_validate {limits : Limits} (h : limits.validate = .ok ()) :
    0 < limits.maxHistoryBatchEvents := by
  unfold Limits.validate at h
  split at h
  · cases h
  · next hchecks => omega

/-- **Cursors deliver the range they are opened on.** On a view with this history, and whatever
goes on meanwhile, a cursor opens on a range within what the view retains. What its calls deliver
is a prefix of that range, all of it once a call returns that there is no more; every batch has
events, and no more of them and no more bytes than was asked for or the database allows; and behind
an error, or the end, there is nothing. All events that are read at once are all that are
retained. -/
theorem cursors_deliver_range {env : ReadEnv} {snapshot : ReadSnapshot} {table id : ℕ}
    {history : ℕ → Event} (hlimits : env.limits.validate = .ok ())
    (hhistory : snapshot.state.HasHistory table id history) :
    (∀ options cursor i tick, (snapshot.history env table id options).run i = (.ok cursor, tick) →
      ∃ base current, snapshot.state.Retains table id base current ∧
        (∀ requested, options.firstVersion = some requested ∨
            options.lastVersion = some requested → base + 1 ≤ requested ∧ requested ≤ current) ∧
        (∀ first last, options.firstVersion = some first → options.lastVersion = some last →
          first ≤ last) ∧
        ∃ range : List Event,
          range = (List.range' (options.firstVersion.getD (base + 1))
            (options.lastVersion.getD current + 1 -
              options.firstVersion.getD (base + 1))).map history ∧
          (∀ n, cursor.delivered env tick n <+: range) ∧
          (∀ n, cursor.result env tick n = .ok none →
            (∀ i < n, ∃ batch, cursor.result env tick i = .ok batch) →
            cursor.delivered env tick n = range) ∧
          (∀ n, range.length ≤ n → cursor.result env tick n = .ok none) ∧
          (∀ n batch, cursor.result env tick n = .ok (some batch) → batch.events ≠ [] ∧
            batch.events.length ≤ min options.maxEvents env.limits.maxHistoryBatchEvents ∧
            batch.bytes = (batch.events.map fun e => e.2 + eventSize).sum ∧
            batch.bytes ≤ min options.maxBytes env.limits.maxHistoryBatchBytes) ∧
          ∀ i n, i < n → (cursor.result env tick i = .ok none ∨
              (∃ e, cursor.result env tick i = .error e) ∨
              cursor.delivered env tick (i + 1) = range) →
            cursor.result env tick n = .ok none) ∧
      ∀ i events j, (snapshot.events env table id).run i = (.ok events, j) →
        ∃ base current, snapshot.state.Retains table id base current ∧
          events = (List.range' (base + 1) (current - base)).map history := by
  refine ⟨fun options cursor i tick hopen => ?_, fun i events j => ReadSnapshot.events_ok hhistory⟩
  obtain ⟨base, current, hretains, hevents, -, hrequested, hordered, htable, hid, hsnapshot,
    hmaxEvents, hmaxBytes, hremaining, hstart⟩ := ReadSnapshot.history_ok hhistory.bounded hopen
  have hrecorded := hhistory.of_snapshot htable hid hsnapshot
  have hrange : cursor.rest history = (List.range' (options.firstVersion.getD (base + 1))
      (options.lastVersion.getD current + 1 - options.firstVersion.getD (base + 1))).map
        history := by
    rw [HistoryCursor.rest, ← hremaining]
    by_cases hzero : cursor.remaining = 0
    · rw [hzero]
      rfl
    · rw [hstart hzero]
  have hsplit := @HistoryCursor.delivered_append_rest env cursor history tick hrecorded
  have hover {n : ℕ} (hnone : (cursor.after env tick n).1.next = none) :
      (cursor.after env tick n).1.rest history = [] := by
    rw [HistoryCursor.rest, HistoryCursor.remaining_of_none hnone]
    rfl
  refine ⟨base, current, hretains, hrequested, hordered, cursor.rest history, hrange, fun n => ?_,
    fun n hnone hok => ?_, fun n hn => ?_, fun n batch hbatch => ?_, fun i n hi hend => ?_⟩
  · rcases hsplit n with hsplit | ⟨-, -, hprefix⟩
    · exact ⟨_, hsplit⟩
    · exact hprefix
  · rcases hsplit n with hsplit | ⟨⟨i, hi, e, hfailed⟩, -⟩
    · have hreturns := @HistoryCursor.result_advances env cursor tick n
      rw [hnone] at hreturns
      rw [← hsplit, hover hreturns.next_of_nothing, List.append_nil]
    · obtain ⟨batch, hbatch⟩ := hok i hi
      rw [hfailed] at hbatch
      cases hbatch
  · rw [HistoryCursor.rest, List.length_map, List.length_range'] at hn
    have hless := @HistoryCursor.remaining_after env cursor tick n
    exact (HistoryCursor.after_of_finished le_rfl
      (HistoryCursor.next_of_remaining (by omega))).2
  · have hreturns := @HistoryCursor.result_returns env cursor _ tick hrecorded n
    rw [hbatch] at hreturns
    have hcontinues := hreturns.continues
    obtain ⟨hoptions, -⟩ := @HistoryCursor.after_frame env cursor _ tick hrecorded n
    rw [hoptions, hmaxEvents, hmaxBytes] at hcontinues
    have hpos : 0 < min options.maxEvents env.limits.maxHistoryBatchEvents :=
      lt_min hevents (historyBatchEvents_of_validate hlimits)
    exact ⟨hcontinues.nonempty, hcontinues.short.trans (max_le hpos le_rfl), hcontinues.total,
      hcontinues.bytes⟩
  · have hnone : (cursor.after env tick (i + 1)).1.next = none := by
      rcases hend with hnone | hfailed | hwhole
      · exact (HistoryCursor.result_advances i).next_of_empty (Or.inl hnone)
      · exact (HistoryCursor.result_advances i).next_of_empty (Or.inr hfailed)
      · rcases hsplit (i + 1) with hsplit | ⟨-, hnone, -⟩
        · rw [hwhole] at hsplit
          refine HistoryCursor.next_of_remaining ?_
          have hempty := List.append_right_eq_self.mp hsplit
          rwa [HistoryCursor.rest, List.map_eq_nil_iff, List.range'_eq_nil_iff] at hempty
        · exact hnone
    exact (HistoryCursor.after_of_finished hi hnone).2

/-! ### Three events -/

section Run

/-- A history that assigns nothing. -/
def plainEvent (version : ℕ) : Event where
  version
  transaction := version
  schemaVersion := 1
  kind := .apply
  fields := ∅

/-- The frame of an event in a segment of the history. -/
def plainFrame (version : ℕ) : Frame :=
    ⟨3, version, pack 1 (encodeEvent (plainEvent version)) false⟩

/-- A segment with the first two events, and where they start. -/
def plainSegment : List (ℕ × Frame) := [(0, plainFrame 1), (86, plainFrame 2)]

/-- The entries of the event index. -/
def plainIndex : List (Key × IndexValue) := [((1, 1), (1, 0)), ((1, 2), (1, 86))]

/-- The files of a checkpoint that has the first two events. -/
def plainFiles : Files where
  lookupIndex _ _ _ := .ok none
  floorIndex _ _ _ := .ok none
  scanIndex _ _ first last :=
    (plainIndex.filter fun entry =>
      (compare first entry.1).isLE && (compare entry.1 last).isLE).map .ok
  page _ _ := .error (.io "No such file or directory (os error 2)")
  payloadSize _ offset :=
    match plainSegment.lookup offset with
    | some frame => .ok frame.payload.length
    | none => corrupt "truncated history frame"
  frame _ offset := .ok (plainSegment.lookup offset)

/-- The checkpoint of sequence two. -/
def plainCheckpoint : Checkpoint where
  manifest := { Root.empty with
    lsn := 2
    historyGenerations := (∅ : SortedMap ℕ ℕ).insert 1 2 }
  files := plainFiles

/-- An entity with two events in that checkpoint, and one in memory. -/
def plainEntity : EntityData where
  current := { id := 1, version := 3, schemaVersion := 1, deleted := false, fields := ∅ }
  base := { id := 1, version := 0, schemaVersion := 1, deleted := false, fields := ∅ }
  events := []
  committed := (∅ : BTreeMap Event).insert 3 (plainEvent 3)
  snapshots := ∅
  disk := some ⟨plainCheckpoint, 1, 2⟩

/-- A view with that entity. -/
def plainView : ReadState where
  root := plainCheckpoint
  catalog := (∅ : Catalog).insert 1 { id := 1, name := "items", schemas := [] }
  overlay := (∅ : SortedMap (ℕ × ℕ) EntityData).insert (1, 1) plainEntity
  lsn := 3

/-- What the index entries of the checkpoint lead to. -/
theorem eventAt_plain {key : Key} {location : IndexValue} (h : (key, location) ∈ plainIndex) :
    (plainCheckpoint.eventAt 1 location).result = .ok (1, plainEvent key.2, key.2) := by
  rcases List.mem_pair.mp h with h | h
  · cases h
    rfl
  · cases h
    rfl

/-- The view has these events of the entity. -/
theorem hasHistory_plain : plainView.HasHistory 1 1 plainEvent where
  numbered _ := rfl
  recorded event hevent := by
    change plainEntity.Records event at hevent
    rcases hevent with ⟨k, hk⟩ | hmem | ⟨disk, hdisk, first, last, key, location, hentry, hread, -⟩
    · simp only [plainEntity, Std.ExtTreeMap.getElem?_insert] at hk
      split at hk
      · cases hk
        rfl
      · cases hk
    · cases hmem
    · cases hdisk
      obtain ⟨entry, hentry, heq⟩ := List.mem_map.mp hentry
      obtain rfl := Except.ok.inj heq
      rw [eventAt_plain (List.mem_filter.mp hentry).1] at hread
      cases hread
      rfl
  bounded data hdata := by
    have hloaded : (plainView.load 1 1).result = .ok (some plainEntity) := rfl
    obtain rfl : plainEntity = data := Option.some.inj (Except.ok.inj (hloaded.symm.trans hdata))
    decide

/-- Its events are those from one to three. -/
theorem retains_plain {base current : ℕ} (h : plainView.Retains 1 1 base current) :
    base = 0 ∧ current = 3 := by
  obtain ⟨data, hdata, rfl, rfl⟩ := h
  have hloaded : (plainView.load 1 1).result = .ok (some plainEntity) := rfl
  obtain rfl : plainEntity = data := Option.some.inj (Except.ok.inj (hloaded.symm.trans hdata))
  exact ⟨rfl, rfl⟩

/-- A cursor returns two batches, and then that there are no more. -/
def endsBehindTwo (env : ReadEnv) : Result HistoryCursor × ℕ → Bool
  | (.ok cursor, tick) =>
    (cursor.result env tick 0).toBool && (cursor.result env tick 1).toBool &&
      decide ((cursor.result env tick 2).toOption.map (·.isNone) = some true)
  | _ => false

/-- A call that does not fail returns a batch, or that there are no more. -/
theorem eq_ok_of_toBool {α : Type} {r : Result α} (h : r.toBool = true) : ∃ a, r = .ok a := by
  cases r with
  | ok a => exact ⟨a, rfl⟩
  | error e => cases h

/-- On that view, with two events at a time, a cursor does so. -/
theorem exists_ending_cursor : ∃ cursor tick,
    (ReadSnapshot.history ⟨plainView, none⟩ (.quiet .default) 1 1
      { HistoryOptions.default with maxEvents := 2 }).run 0 = (.ok cursor, tick) ∧
      (∃ batch, cursor.result (.quiet .default) tick 0 = .ok batch) ∧
      (∃ batch, cursor.result (.quiet .default) tick 1 = .ok batch) ∧
      cursor.result (.quiet .default) tick 2 = .ok none := by
  have hends : endsBehindTwo (.quiet .default) ((ReadSnapshot.history ⟨plainView, none⟩
      (.quiet .default) 1 1 { HistoryOptions.default with maxEvents := 2 }).run 0) = true := by
    decide +kernel
  rcases hopen : (ReadSnapshot.history ⟨plainView, none⟩ (.quiet .default) 1 1
      { HistoryOptions.default with maxEvents := 2 }).run 0 with ⟨e | cursor, tick⟩
  · rw [hopen] at hends
    cases hends
  · rw [hopen, endsBehindTwo, Bool.and_eq_true, Bool.and_eq_true, decide_eq_true_eq] at hends
    obtain ⟨⟨hfirst, hsecond⟩, hend⟩ := hends
    refine ⟨cursor, tick, rfl, eq_ok_of_toBool hfirst, eq_ok_of_toBool hsecond, ?_⟩
    rcases hresult : cursor.result (.quiet .default) tick 2 with e | batch | batch
    · rw [hresult] at hend
      cases hend
    · rfl
    · rw [hresult] at hend
      cases hend

/-- Two events on disk and one in memory, two of them at a time: two calls deliver all three,
and every later one returns that there are no more. -/
theorem cursors_deliver_range_three : ∃ cursor tick,
    (ReadSnapshot.history ⟨plainView, none⟩ (.quiet .default) 1 1
      { HistoryOptions.default with maxEvents := 2 }).run 0 = (.ok cursor, tick) ∧
      (∀ n, cursor.delivered (.quiet .default) tick n <+:
        [plainEvent 1, plainEvent 2, plainEvent 3]) ∧
      cursor.delivered (.quiet .default) tick 2 = [plainEvent 1, plainEvent 2, plainEvent 3] ∧
      (∀ n, 2 ≤ n → cursor.result (.quiet .default) tick n = .ok none) ∧
      ∀ i events j, (ReadSnapshot.events ⟨plainView, none⟩ (.quiet .default) 1 1).run i =
          (.ok events, j) →
        events = [plainEvent 1, plainEvent 2, plainEvent 3] := by
  have hlimits : Limits.default.validate = .ok () := by decide
  obtain ⟨hcursors, hevents⟩ :=
    @cursors_deliver_range (.quiet .default) ⟨plainView, none⟩ 1 1 plainEvent hlimits
      hasHistory_plain
  obtain ⟨cursor, tick, hopen, hfirst, hsecond, hend⟩ := exists_ending_cursor
  obtain ⟨base, current, hrange, -, -, range, rfl, hprefix, hwhole, -, -, hover⟩ :=
    hcursors _ cursor 0 tick hopen
  obtain ⟨rfl, rfl⟩ := retains_plain hrange
  have htwo := hwhole 2 hend (by
    intro i hi
    obtain rfl | rfl : i = 0 ∨ i = 1 := by omega
    · exact hfirst
    · exact hsecond)
  refine ⟨cursor, tick, hopen, hprefix, htwo, ?_, ?_⟩
  · intro n hn
    rcases hn.eq_or_lt with rfl | hlt
    · exact hend
    · exact hover 2 n hlt (Or.inl hend)
  · intro i events j h
    obtain ⟨base, current, hrange, rfl⟩ := hevents i events j h
    obtain ⟨rfl, rfl⟩ := retains_plain hrange
    rfl

end Run

end EveDB.Store
